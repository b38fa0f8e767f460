import NotIo.Interrupts

/-!
# The loops of the crate and its errors

The loops see no more of an error than whether it is an interruption, and make errors of a few
kinds themselves.  So readers and writers that answer alike, up to their errors, are read and
written alike, call by call.

* `readExact_rel`, `writeAll_rel`, `stackCopy_rel`, `readToEnd_rel`, `readUntil_rel`,
  `readToString_rel`, `readLine_rel`: the loops.
* `Slice.rel`, `Cursor.rel`, `Take.rel`, `vecWrite_rel`: the readers and writers of the crate answer
  alike with every type of errors.
-/

namespace NotIo

open Loop (StepRel)

section

variable {E F R R' W W' : Type}

/-! ### Calls that end alike -/

/-- The ends of two calls, with errors that are related. -/
inductive Outcome.Rel (Same : E → F → Prop) {α : Type} : Outcome E α → Outcome F α → Prop
  | ok (a : α) : Rel Same (.ok a) (.ok a)
  | err {e : E} {e' : F} : Same e e' → Rel Same (.err e) (.err e')
  | panic : Rel Same .panic .panic

/-- `Result::map_err`, also over panics. -/
def Outcome.mapErr {α : Type} (op : E → F) : Outcome E α → Outcome F α
  | .ok a => .ok a
  | .err e => .err (op e)
  | .panic => .panic

/-- What two calls have left, and how they have ended. -/
def Alike {α α' β : Type} (S : R → R' → Prop) (T : α → α' → Prop) (Same : E → F → Prop)
    (x : R × α × Outcome E β) (x' : R' × α' × Outcome F β) : Prop :=
  S x.1 x'.1 ∧ T x.2.1 x'.2.1 ∧ x.2.2.Rel Same x'.2.2

/-- **What the loops see of an error** is the same for related errors; and the errors that they
make are related. -/
structure SameErrors [ErrorImpl E] [ErrorImpl F] (Same : E → F → Prop) : Prop where
  interrupted : ∀ {e : E} {e' : F}, Same e e' → Error.isInterrupted e = Error.isInterrupted e'
  made : ∀ kind, kind ≠ .interrupted → Same (Error.ofErrorKind kind) (Error.ofErrorKind kind)

/-- Reads of related readers end alike. -/
def ReadRel [Read E R] [Read F R'] (S : R → R' → Prop) (Same : E → F → Prop) : Prop :=
  ∀ r r' buf, S r r' →
    Alike S Eq Same (Read.read (E := E) r buf) (Read.read (E := F) r' buf)

def WriteRel [Write E W] [Write F W'] (T : W → W' → Prop) (Same : E → F → Prop) : Prop :=
  ∀ w w' buf, T w w' → T (Write.write (E := E) w buf).1 (Write.write (E := F) w' buf).1 ∧
    (Write.write (E := E) w buf).2.Rel Same (Write.write (E := F) w' buf).2

structure BufReadRel [Target] [BufRead E R] [BufRead F R'] (S : R → R' → Prop)
    (Same : E → F → Prop) : Prop where
  read : ReadRel S Same
  fillBuf : ∀ r r', S r r' → S (BufRead.fillBuf (E := E) r).1 (BufRead.fillBuf (E := F) r').1 ∧
    (BufRead.fillBuf (E := E) r).2.Rel Same (BufRead.fillBuf (E := F) r').2
  consume : ∀ r r' amt, S r r' →
    Option.Rel S (BufRead.consume E r amt) (BufRead.consume F r' amt)

variable [ErrorImpl E] [ErrorImpl F] {S : R → R' → Prop} {T : W → W' → Prop}
  {Same : E → F → Prop}

/-! ### The loops -/

theorem readExact_rel [Read E R] [Read F R'] (hS : ReadRel S Same) (hE : SameErrors Same) (n : ℕ)
    {r : R} {r' : R'} (h : S r r') (buf : List UInt8) :
    Option.Rel (Alike S Eq Same) (readExact (E := E) n r buf) (readExact (E := F) n r' buf) := by
  refine Loop.loop_rel (fun s s' => S s.1 s'.1 ∧ s.2 = s'.2) ?_ n ⟨h, rfl⟩
  intro s s' hs
  obtain ⟨r, filled, buf⟩ := s
  obtain ⟨r', filled', buf'⟩ := s'
  obtain ⟨hr, heq⟩ := hs
  cases heq
  by_cases hb : buf.isEmpty
  · simp only [readExactBody, hb, if_true]
    exact .done ⟨hr, rfl, .ok ()⟩
  · have hread := hS r r' buf hr
    simp only [readExactBody, hb, Bool.false_eq_true, if_false]
    generalize Read.read (E := E) r buf = x at hread ⊢
    generalize Read.read (E := F) r' buf = x' at hread ⊢
    obtain ⟨r₁, b, o⟩ := x
    obtain ⟨r₁', b', o'⟩ := x'
    obtain ⟨hr₁, rfl, ho⟩ := hread
    cases ho with
    | ok k =>
      cases k with
      | zero => exact .done ⟨hr₁, rfl, .err (hE.made _ (by simp))⟩
      | succ k =>
        show StepRel _ _ (if k + 1 ≤ b.length then _ else _) (if k + 1 ≤ b.length then _ else _)
        split
        · exact .next ⟨hr₁, rfl⟩
        · exact .done ⟨hr₁, rfl, .panic⟩
    | err he =>
      dsimp only
      rw [hE.interrupted he]
      split
      · exact .next ⟨hr₁, rfl⟩
      · exact .done ⟨hr₁, rfl, .err he⟩
    | panic => exact .done ⟨hr₁, rfl, .panic⟩

theorem writeAll_rel [Write E W] [Write F W'] (hT : WriteRel T Same) (hE : SameErrors Same)
    (n : ℕ) {w : W} {w' : W'} (h : T w w') (buf : List UInt8) :
    Option.Rel (fun x x' => T x.1 x'.1 ∧ x.2.Rel Same x'.2) (writeAll (E := E) n w buf)
      (writeAll (E := F) n w' buf) := by
  refine Loop.loop_rel (fun s s' => T s.1 s'.1 ∧ s.2 = s'.2) ?_ n ⟨h, rfl⟩
  intro s s' hs
  obtain ⟨w, buf⟩ := s
  obtain ⟨w', buf'⟩ := s'
  obtain ⟨hw, heq⟩ := hs
  cases heq
  by_cases hb : buf.isEmpty
  · simp only [writeAllBody, hb, if_true]
    exact .done ⟨hw, .ok ()⟩
  · have hwrite := hT w w' buf hw
    simp only [writeAllBody, hb, Bool.false_eq_true, if_false]
    generalize Write.write (E := E) w buf = x at hwrite ⊢
    generalize Write.write (E := F) w' buf = x' at hwrite ⊢
    obtain ⟨w₁, o⟩ := x
    obtain ⟨w₁', o'⟩ := x'
    obtain ⟨hw₁, ho⟩ := hwrite
    cases ho with
    | ok k =>
      cases k with
      | zero => exact .done ⟨hw₁, .err (hE.made _ (by simp))⟩
      | succ k =>
        show StepRel _ _ (if k + 1 ≤ buf.length then _ else _) (if k + 1 ≤ buf.length then _ else _)
        split
        · exact .next ⟨hw₁, rfl⟩
        · exact .done ⟨hw₁, .panic⟩
    | err he =>
      dsimp only
      rw [hE.interrupted he]
      split
      · exact .next ⟨hw₁, rfl⟩
      · exact .done ⟨hw₁, .err he⟩
    | panic => exact .done ⟨hw₁, .panic⟩

section

variable [Target]

omit [ErrorImpl E] [ErrorImpl F] in
theorem afterWriteAll_same {r : R} {r' : R'} (hr : S r r') (buffer : List UInt8) (written : UInt64)
    (len : ℕ) {x : W × Outcome E Unit} {x' : W' × Outcome F Unit}
    (h : T x.1 x'.1 ∧ x.2.Rel Same x'.2) :
    StepRel (fun s s' => S s.1 s'.1 ∧ T s.2.1 s'.2.1 ∧ s.2.2 = s'.2.2) (Alike S T Same)
      (afterWriteAll r buffer written len x) (afterWriteAll r' buffer written len x') := by
  obtain ⟨w, o⟩ := x
  obtain ⟨w', o'⟩ := x'
  obtain ⟨hw, ho⟩ := h
  cases ho with
  | ok u =>
    simp only [afterWriteAll]
    cases U64.add written (U64.ofUsize len) with
    | none => exact .done ⟨hr, hw, .panic⟩
    | some written => exact .next ⟨hr, hw, rfl⟩
  | err he => exact .done ⟨hr, hw, .err he⟩
  | panic => exact .done ⟨hr, hw, .panic⟩

/-- **`copy`**, with its reader and its writer. -/
theorem stackCopy_rel [Read E R] [Read F R'] [Write E W] [Write F W'] (hS : ReadRel S Same)
    (hT : WriteRel T Same) (hE : SameErrors Same) (n : ℕ) {r : R} {r' : R'} (hr : S r r') {w : W}
    {w' : W'} (hw : T w w') :
    Option.Rel (Alike S T Same) (stackCopy (E := E) n r w) (stackCopy (E := F) n r' w') := by
  refine Loop.run_rel (fun s s' => S s.1 s'.1 ∧ T s.2.1 s'.2.1 ∧ s.2.2 = s'.2.2) ?_ n
    ⟨hr, hw, rfl⟩
  intro n s s' hs
  obtain ⟨r, w, buffer, written⟩ := s
  obtain ⟨r', w', buffer', written'⟩ := s'
  obtain ⟨hr, hw, heq⟩ := hs
  cases heq
  have hends := hS r r' buffer hr
  rcases hread : Read.read (E := E) r buffer with ⟨r₁, b, o⟩
  rcases hread' : Read.read (E := F) r' buffer with ⟨r₁', b', o'⟩
  rw [hread, hread'] at hends
  obtain ⟨hr₁, rfl, ho⟩ := hends
  cases ho with
  | ok k =>
    cases k with
    | zero =>
      simp only [stackCopyBody, hread, hread']
      exact .some (.done ⟨hr₁, hw, .ok _⟩)
    | succ k =>
      by_cases hk : k + 1 ≤ b.length
      · rw [stackCopyBody_ok hread hk, stackCopyBody_ok hread' hk]
        have hwrite := writeAll_rel hT hE n hw (b.take (k + 1))
        generalize writeAll (E := E) n w (b.take (k + 1)) = y at hwrite ⊢
        generalize writeAll (E := F) n w' (b.take (k + 1)) = y' at hwrite ⊢
        cases hwrite with
        | none => exact .none
        | some hy => exact .some (afterWriteAll_same hr₁ b written (k + 1) hy)
      · simp only [stackCopyBody, hread, hread', if_neg hk]
        exact .some (.done ⟨hr₁, hw, .panic⟩)
  | err he =>
    simp only [stackCopyBody, hread, hread', hE.interrupted he]
    split
    · exact .some (.next ⟨hr₁, hw, rfl⟩)
    · exact .some (.done ⟨hr₁, hw, .err he⟩)
  | panic =>
    simp only [stackCopyBody, hread, hread']
    exact .some (.done ⟨hr₁, hw, .panic⟩)

omit [ErrorImpl E] [ErrorImpl F] in
theorem readInto_rel [Read E R] [Read F R'] (hS : ReadRel S Same) (guard : Guard) {r : R} {r' : R'}
    (h : S r r') : Alike S Eq Same (guard.readInto (E := E) r) (guard.readInto (E := F) r') := by
  have hread := hS r r' (guard.buf.bytes.drop guard.len) h
  refine ⟨hread.1, ?_, hread.2.2⟩
  simp only [Guard.readInto, hread.2.1]

variable [Alloc]

theorem readToEnd_rel [Read E R] [Read F R'] (hS : ReadRel S Same) (hE : SameErrors Same) (n : ℕ)
    {r : R} {r' : R'} (h : S r r') (buf : Vec) :
    Option.Rel (Alike S Eq Same) (readToEnd (E := E) n r buf) (readToEnd (E := F) n r' buf) := by
  refine Loop.loop_rel (fun s s' => S s.1 s'.1 ∧ s.2 = s'.2) ?_ n ⟨h, rfl⟩
  intro s s' hs
  obtain ⟨r, guard⟩ := s
  obtain ⟨r', guard'⟩ := s'
  obtain ⟨hr, heq⟩ := hs
  cases heq
  simp only [readToEndBody]
  cases guard.ensureRoom with
  | none => exact .done ⟨hr, rfl, .panic⟩
  | some guard =>
    have hread := readInto_rel hS guard hr
    dsimp only
    generalize guard.readInto (E := E) r = x at hread ⊢
    generalize guard.readInto (E := F) r' = x' at hread ⊢
    obtain ⟨r₁, g, o⟩ := x
    obtain ⟨r₁', g', o'⟩ := x'
    obtain ⟨hr₁, rfl, ho⟩ := hread
    cases ho with
    | ok k =>
      cases k with
      | zero => exact .done ⟨hr₁, rfl, .ok _⟩
      | succ k =>
        simp only [readToEndAnswer_succ]
        split
        · exact .next ⟨hr₁, rfl⟩
        · exact .done ⟨hr₁, rfl, .panic⟩
    | err he =>
      simp only [readToEndAnswer]
      rw [hE.interrupted he]
      split
      · exact .next ⟨hr₁, rfl⟩
      · exact .done ⟨hr₁, rfl, .err he⟩
    | panic => exact .done ⟨hr₁, rfl, .panic⟩

theorem readUntil_rel [BufRead E R] [BufRead F R'] (hS : BufReadRel S Same)
    (hE : SameErrors Same) (n : ℕ) {r : R} {r' : R'} (h : S r r') (byte : UInt8) (buf : Vec) :
    Option.Rel (Alike S Eq Same) (readUntil (E := E) n r byte buf)
      (readUntil (E := F) n r' byte buf) := by
  refine Loop.loop_rel (fun s s' => S s.1 s'.1 ∧ s.2 = s'.2) ?_ n ⟨h, rfl⟩
  intro s s' hs
  obtain ⟨r, buf, read⟩ := s
  obtain ⟨r', buf', read'⟩ := s'
  obtain ⟨hr, heq⟩ := hs
  cases heq
  have hfill := hS.fillBuf r r' hr
  simp only [readUntilBody]
  generalize BufRead.fillBuf (E := E) r = x at hfill ⊢
  generalize BufRead.fillBuf (E := F) r' = x' at hfill ⊢
  obtain ⟨r₁, o⟩ := x
  obtain ⟨r₁', o'⟩ := x'
  obtain ⟨hr₁, ho⟩ := hfill
  cases ho with
  | ok available =>
    simp only [readUntilChunk]
    cases buf.extendFromSlice (available.bytes.take (doneUsed byte available.bytes).2) with
    | none => exact .done ⟨hr₁, rfl, .panic⟩
    | some v =>
      have hconsume := hS.consume r₁ r₁' (doneUsed byte available.bytes).2 hr₁
      dsimp only
      generalize BufRead.consume E r₁ (doneUsed byte available.bytes).2 = y at hconsume ⊢
      generalize BufRead.consume F r₁' (doneUsed byte available.bytes).2 = y' at hconsume ⊢
      cases hconsume with
      | none => exact .done ⟨hr₁, rfl, .panic⟩
      | some hr₂ =>
        dsimp only
        cases usizeAdd read (doneUsed byte available.bytes).2 with
        | none => exact .done ⟨hr₂, rfl, .panic⟩
        | some read =>
          dsimp only
          split
          · exact .done ⟨hr₂, rfl, .ok _⟩
          · exact .next ⟨hr₂, rfl⟩
  | err he =>
    dsimp only
    rw [hE.interrupted he]
    split
    · exact .next ⟨hr₁, rfl⟩
    · exact .done ⟨hr₁, rfl, .err he⟩
  | panic => exact .done ⟨hr₁, rfl, .panic⟩

omit [Alloc] in
/-- What a string is appended to alike is looked at alike. -/
theorem appendToString_rel (hE : SameErrors Same) {r : R} {r' : R'} (buf : Str)
    {reader : R → Vec → Option (R × Vec × Outcome E ℕ)}
    {reader' : R' → Vec → Option (R' × Vec × Outcome F ℕ)}
    (h : Option.Rel (Alike S Eq Same) (reader r buf.vec) (reader' r' buf.vec)) :
    Option.Rel (Alike S Eq Same) (appendToString r buf reader) (appendToString r' buf reader') := by
  simp only [appendToString]
  generalize reader r buf.vec = x at h ⊢
  generalize reader' r' buf.vec = x' at h ⊢
  cases h with
  | none => exact .none
  | @some x x' hx =>
    obtain ⟨r₁, v, o⟩ := x
    obtain ⟨r₁', v', o'⟩ := x'
    obtain ⟨hr₁, rfl, ho⟩ := hx
    have hinvalid : (o.andThen fun _ : ℕ => .err (Error.ofErrorKind .invalidData)).Rel Same
        (o'.andThen fun _ : ℕ => (.err (Error.ofErrorKind .invalidData) : Outcome F ℕ)) := by
      cases ho with
      | ok k => exact .err (hE.made _ (by simp))
      | err he => exact .err he
      | panic => exact .panic
    cases ho with
    | panic => exact .some ⟨hr₁, rfl, .panic⟩
    | ok k =>
      dsimp only
      cases splitAt v.bytes buf.vec.len with
      | none => exact .some ⟨hr₁, rfl, .panic⟩
      | some parts =>
        dsimp only
        split
        · exact .some ⟨hr₁, rfl, hinvalid⟩
        · exact .some ⟨hr₁, rfl, .ok k⟩
    | err he =>
      dsimp only
      cases splitAt v.bytes buf.vec.len with
      | none => exact .some ⟨hr₁, rfl, .panic⟩
      | some parts =>
        dsimp only
        split
        · exact .some ⟨hr₁, rfl, hinvalid⟩
        · exact .some ⟨hr₁, rfl, .err he⟩

theorem readToString_rel [Read E R] [Read F R'] (hS : ReadRel S Same) (hE : SameErrors Same)
    (n : ℕ) {r : R} {r' : R'} (h : S r r') (buf : Str) :
    Option.Rel (Alike S Eq Same) (readToString (E := E) n r buf)
      (readToString (E := F) n r' buf) :=
  appendToString_rel hE buf (readToEnd_rel hS hE n h buf.vec)

theorem readLine_rel [BufRead E R] [BufRead F R'] (hS : BufReadRel S Same) (hE : SameErrors Same)
    (n : ℕ) {r : R} {r' : R'} (h : S r r') (buf : Str) :
    Option.Rel (Alike S Eq Same) (readLine (E := E) n r buf) (readLine (E := F) n r' buf) :=
  appendToString_rel hE buf (readUntil_rel hS hE n h newline buf.vec)

end

end

/-! ### The readers and writers of the crate -/

section

variable [Target] {E F R W : Type} (Same : E → F → Prop)

theorem Slice.rel : BufReadRel (E := E) (F := F) (Eq : Slice → Slice → Prop) Same where
  read r r' buf h := by
    cases h
    simp only [Slice.read_def, Slice.read_eq]
    exact ⟨rfl, rfl, .ok _⟩
  fillBuf r r' h := by
    cases h
    exact ⟨rfl, .ok _⟩
  consume r r' amt h := by
    cases h
    simp only [Slice.consume_eq]
    cases r.indexFrom amt with
    | none => exact .none
    | some r₁ => exact .some rfl

theorem Cursor.rel {T : Type} [AsRef T] :
    BufReadRel (E := E) (F := F) (Eq : Cursor T → Cursor T → Prop) Same where
  read r r' buf h := by
    cases h
    show Alike _ _ _ (r.read buf) (r.read buf)
    rw [Cursor.read_eq, Cursor.read_eq]
    exact ⟨rfl, rfl, .ok _⟩
  fillBuf r r' h := by
    cases h
    show (r.fillBuf).1 = (r.fillBuf).1 ∧ Outcome.Rel Same (r.fillBuf).2 (r.fillBuf).2
    rw [Cursor.fillBuf_eq, Cursor.fillBuf_eq]
    exact ⟨rfl, .ok _⟩
  consume r r' amt h := by
    cases h
    show Option.Rel Eq (r.consume amt) (r.consume amt)
    cases r.consume amt with
    | none => exact .none
    | some r₁ => exact .some rfl

/-- The `read_exact` of a reader does the same with both kinds of errors. -/
def ReadExactRel (E F R : Type) [ReadExactImpl E R] [ReadExactImpl F R] (Same : E → F → Prop) :
    Prop :=
  ∀ (n : ℕ) (r : R) (buf : List UInt8), Option.Rel (Alike Eq Eq Same)
    (ReadExactImpl.readExactImpl (E := E) n r buf) (ReadExactImpl.readExactImpl (E := F) n r buf)

variable {Same} in
omit [Target] in
theorem ReadExactRel.of_provided [ErrorImpl E] [ErrorImpl F] [Read E R] [Read F R]
    (h : ReadRel (E := E) (F := F) (Eq : R → R → Prop) Same) (hE : SameErrors Same) :
    ReadExactRel E F R Same :=
  fun n _ buf => readExact_rel h hE n rfl buf

variable {Same} in
/-- The cursor's own `read_exact`. -/
theorem Cursor.readExact_rel [ErrorImpl E] [ErrorImpl F] {T : Type} [AsRef T]
    (hE : SameErrors Same) : ReadExactRel E F (Cursor T) Same := by
  intro n c buf
  show Option.Rel _ (c.readExact n buf) (c.readExact n buf)
  have hends := NotIo.readExact_rel (Slice.rel Same).read hE n (rfl : c.remaining = _) buf
  simp only [Cursor.readExact, Cursor.fillBuf_eq]
  generalize NotIo.readExact (E := E) n c.remaining buf = x at hends ⊢
  generalize NotIo.readExact (E := F) n c.remaining buf = x' at hends ⊢
  cases hends with
  | none => exact .none
  | @some x x' hx =>
    obtain ⟨s, b, o⟩ := x
    obtain ⟨s', b', o'⟩ := x'
    obtain ⟨-, hb, ho⟩ := hx
    simp only at hb ho
    subst hb
    cases ho with
    | ok u =>
      dsimp only
      cases c.consume b.length with
      | none => exact .some ⟨rfl, rfl, .panic⟩
      | some c' => exact .some ⟨rfl, rfl, .ok ()⟩
    | err he => exact .some ⟨rfl, rfl, .err he⟩
    | panic => exact .some ⟨rfl, rfl, .panic⟩

theorem Empty.rel : BufReadRel (E := E) (F := F) (Eq : Empty → Empty → Prop) Same where
  read _ _ _ h := ⟨h, rfl, .ok 0⟩
  fillBuf _ _ h := ⟨h, .ok _⟩
  consume _ _ _ h := .some h

theorem Take.readRel [Read E R] [Read F R]
    (h : ReadRel (E := E) (F := F) (Eq : R → R → Prop) Same) :
    ReadRel (E := E) (F := F) (Eq : Take R → Take R → Prop) Same := by
  intro t t' buf ht
  cases ht
  show Alike _ _ _ (t.read buf) (t.read buf)
  by_cases hzero : t.limit = 0
  · rw [Take.read_of_zero hzero, Take.read_of_zero hzero]
    exact ⟨rfl, rfl, .ok 0⟩
  · have hends := h t.inner t.inner (buf.take (capMin t.limit buf.length)) rfl
    rcases hread : Read.read (E := E) t.inner (buf.take (capMin t.limit buf.length)) with ⟨r, b, o⟩
    rcases hread' : Read.read (E := F) t.inner (buf.take (capMin t.limit buf.length)) with
      ⟨r', b', o'⟩
    rw [hread, hread'] at hends
    obtain ⟨hr, hb, ho⟩ := hends
    simp only at hr hb ho
    subst hr hb
    rw [Take.read_of_ne hzero hread, Take.read_of_ne hzero hread']
    refine ⟨?_, rfl, ho⟩
    cases ho <;> rfl

theorem Take.rel [BufRead E R] [BufRead F R]
    (h : BufReadRel (E := E) (F := F) (Eq : R → R → Prop) Same) :
    BufReadRel (E := E) (F := F) (Eq : Take R → Take R → Prop) Same where
  read := Take.readRel Same h.read
  fillBuf t t' ht := by
    cases ht
    show (t.fillBuf (E := E)).1 = (t.fillBuf (E := F)).1 ∧
      Outcome.Rel Same (t.fillBuf (E := E)).2 (t.fillBuf (E := F)).2
    by_cases hzero : t.limit = 0
    · rw [Take.fillBuf_of_zero hzero, Take.fillBuf_of_zero hzero]
      exact ⟨rfl, .ok _⟩
    · have hends := h.fillBuf t.inner t.inner rfl
      rcases hfill : BufRead.fillBuf (E := E) t.inner with ⟨r, o⟩
      rcases hfill' : BufRead.fillBuf (E := F) t.inner with ⟨r', o'⟩
      rw [hfill, hfill'] at hends
      obtain ⟨hr, ho⟩ := hends
      simp only at hr ho
      subst hr
      rw [Take.fillBuf_of_ne hzero hfill, Take.fillBuf_of_ne hzero hfill']
      refine ⟨rfl, ?_⟩
      cases ho with
      | ok s => exact .ok _
      | err he => exact .err he
      | panic => exact .panic
  consume t t' amt ht := by
    cases ht
    show Option.Rel Eq (t.consume E amt) (t.consume F amt)
    simp only [Take.consume]
    cases U64.sub t.limit (U64.ofUsize (capMin t.limit amt)) with
    | none => exact .none
    | some limit =>
      have hends := h.consume t.inner t.inner (capMin t.limit amt) rfl
      dsimp only
      generalize BufRead.consume E t.inner (capMin t.limit amt) = x at hends ⊢
      generalize BufRead.consume F t.inner (capMin t.limit amt) = x' at hends ⊢
      cases hends with
      | none => exact .none
      | some hr =>
        cases hr
        exact .some rfl

theorem SliceMut.rel : WriteRel (E := E) (F := F) (Eq : SliceMut → SliceMut → Prop) Same := by
  intro w w' buf h
  cases h
  simp only [SliceMut.write_def, SliceMut.write]
  cases copyFromSlice (w.rest.take (min w.rest.length buf.length)) buf with
  | none => exact ⟨rfl, .panic⟩
  | some head => exact ⟨rfl, .ok _⟩

omit [Target] in
theorem Sink.rel : WriteRel (E := E) (F := F) (Eq : Sink → Sink → Prop) Same :=
  fun _ _ _ h => ⟨h, .ok _⟩

theorem Cursor.sliceRel :
    WriteRel (E := E) (F := F) (Eq : Cursor SliceMut → Cursor SliceMut → Prop) Same := by
  intro w w' buf h
  cases h
  show (w.writeSlice (E := E) buf).1 = (w.writeSlice (E := F) buf).1 ∧
    Outcome.Rel Same (w.writeSlice (E := E) buf).2 (w.writeSlice (E := F) buf).2
  have hends := SliceMut.rel Same (Cursor.tailFrom w.inner
    (min w.pos (U64.ofUsize w.inner.rest.length)).toNat) _ buf rfl
  simp only [Cursor.writeSlice]
  generalize Write.write (E := E) (Cursor.tailFrom w.inner
    (min w.pos (U64.ofUsize w.inner.rest.length)).toNat) buf = x at hends ⊢
  generalize Write.write (E := F) (Cursor.tailFrom w.inner
    (min w.pos (U64.ofUsize w.inner.rest.length)).toNat) buf = x' at hends ⊢
  obtain ⟨slice, o⟩ := x
  obtain ⟨slice', o'⟩ := x'
  obtain ⟨rfl, ho⟩ := hends
  cases ho with
  | ok n =>
    dsimp only
    cases U64.add w.pos (U64.ofUsize n) with
    | none => exact ⟨rfl, .panic⟩
    | some pos => exact ⟨rfl, .ok n⟩
  | err he => exact ⟨rfl, .err he⟩
  | panic => exact ⟨rfl, .panic⟩

variable [Alloc]

theorem Vec.rel : WriteRel (E := E) (F := F) (Eq : Vec → Vec → Prop) Same := by
  intro w w' buf h
  cases h
  simp only [Write.write]
  cases w.extendFromSlice buf with
  | none => exact ⟨rfl, .panic⟩
  | some v => exact ⟨rfl, .ok _⟩

variable {Same} [ErrorImpl E] [ErrorImpl F]

theorem vecWrite_rel (hE : SameErrors Same) (pos : UInt64) (vec : Vec) (buf : List UInt8) :
    (vecWrite (E := E) pos vec buf).1 = (vecWrite (E := F) pos vec buf).1 ∧
      (vecWrite (E := E) pos vec buf).2.1 = (vecWrite (E := F) pos vec buf).2.1 ∧
      Outcome.Rel Same (vecWrite (E := E) pos vec buf).2.2 (vecWrite (E := F) pos vec buf).2.2 := by
  simp only [vecWrite]
  cases usizeTryFrom pos with
  | none => exact ⟨rfl, rfl, .err (hE.made _ (by simp))⟩
  | some p =>
    dsimp only
    cases vec.resize (max vec.len p) 0 with
    | none => exact ⟨rfl, rfl, .panic⟩
    | some v =>
      dsimp only
      cases splitAt buf (min buf.length (max vec.len p - p)) with
      | none => exact ⟨rfl, rfl, .panic⟩
      | some parts =>
        dsimp only
        cases v.overwrite p parts.1 with
        | none => exact ⟨rfl, rfl, .panic⟩
        | some v =>
          dsimp only
          cases v.extendFromSlice parts.2 with
          | none => exact ⟨rfl, rfl, .panic⟩
          | some v =>
            dsimp only
            cases usizeAdd p buf.length with
            | none => exact ⟨rfl, rfl, .panic⟩
            | some p' => exact ⟨rfl, rfl, .ok _⟩

theorem Cursor.vecRel (hE : SameErrors Same) :
    WriteRel (E := E) (F := F) (Eq : Cursor Vec → Cursor Vec → Prop) Same := by
  intro w w' buf h
  cases h
  obtain ⟨hpos, hvec, hout⟩ := vecWrite_rel hE w.pos w.inner buf
  exact ⟨congr (congrArg Cursor.mk hvec) hpos, hout⟩

theorem Cursor.mutRefRel (hE : SameErrors Same) :
    WriteRel (E := E) (F := F) (Eq : Cursor (MutRef Vec) → Cursor (MutRef Vec) → Prop) Same := by
  intro w w' buf h
  cases h
  obtain ⟨hpos, hvec, hout⟩ := vecWrite_rel hE w.pos w.inner.target buf
  exact ⟨congr (congrArg Cursor.mk (congrArg MutRef.mk hvec)) hpos, hout⟩

end

end NotIo
