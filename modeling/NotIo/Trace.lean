import NotIo.Core.ImplsAlloc

/-!
# What passes between a loop and its reader or writer

`Logged R` is the reader (or writer) `R` with a record of the calls that were made
to it.  The record is a ghost: a `ReadHom` is a map of readers that keeps every
answer, the loops of the crate respect such maps (`stackCopy_map`, `readToEnd_map`),
and to forget the record is one.  So a statement about a run over `Logged R` is one
about the run over `R` (`stackCopy_logged`, `readToEnd_logged`).

A `Script` is a reader, and `Answers` a writer, that does what it was told beforehand.
-/

namespace NotIo

variable {E R R' W W' : Type}

/-! ### Maps of readers and writers -/

/-- `f` keeps the answers of the reader. -/
def ReadHom (E : Type) [Read E R] [Read E R'] (f : R → R') : Prop :=
  ∀ (self : R) (buf : List UInt8), Read.read (E := E) (f self) buf =
    Prod.map f id (Read.read (E := E) self buf)

/-- `g` keeps the answers of the writer. -/
def WriteHom (E : Type) [Write E W] [Write E W'] (g : W → W') : Prop :=
  ∀ (self : W) (buf : List UInt8), Write.write (E := E) (g self) buf =
    Prod.map g id (Write.write (E := E) self buf)

section

variable [ErrorImpl E]

theorem writeAll_map [Write E W] [Write E W'] {g : W → W'} (hg : WriteHom E g) (n : ℕ) (self : W)
    (buf : List UInt8) : writeAll (E := E) n (g self) buf =
      (writeAll n self buf).map (Prod.map g id) := by
  refine Loop.loop_map (f := Prod.map g id) ?_ n (self, buf)
  intro s
  obtain ⟨self, buf⟩ := s
  simp only [writeAllBody, Prod.map, id_eq, hg self buf]
  by_cases hb : buf.isEmpty
  · simp [hb, Loop.Step.map]
  · rcases Write.write (E := E) self buf with ⟨self', (_ | n) | e | _⟩ <;>
      simp only [hb, Bool.false_eq_true, if_false, Prod.map, id_eq, Loop.Step.map] <;>
      split <;> rfl

theorem readExact_map [Read E R] [Read E R'] {f : R → R'} (hf : ReadHom E f) (n : ℕ) (self : R)
    (buf : List UInt8) : readExact (E := E) n (f self) buf =
      (readExact n self buf).map (Prod.map f id) := by
  refine Loop.loop_map (f := Prod.map f id) ?_ n (self, [], buf)
  intro s
  obtain ⟨self, filled, buf⟩ := s
  simp only [readExactBody, Prod.map, id_eq, hf self buf]
  by_cases hb : buf.isEmpty
  · simp [hb, Loop.Step.map]
  · rcases Read.read (E := E) self buf with ⟨self', buf', (_ | n) | e | _⟩ <;>
      simp only [hb, Bool.false_eq_true, if_false, Prod.map, id_eq, Loop.Step.map] <;>
      split <;> rfl

theorem stackCopyBody_map [Target] [Read E R] [Read E R'] [Write E W] [Write E W'] {f : R → R'}
    {g : W → W'} (hf : ReadHom E f) (hg : WriteHom E g) (n : ℕ) (s : R × W × List UInt8 × UInt64) :
    stackCopyBody (E := E) n (Prod.map f (Prod.map g id) s) =
      (stackCopyBody n s).map (Loop.Step.map (Prod.map f (Prod.map g id))
        (Prod.map f (Prod.map g id))) := by
  obtain ⟨read, write, buffer, written⟩ := s
  simp only [stackCopyBody, Prod.map, id_eq, hf read buffer]
  rcases Read.read (E := E) read buffer with ⟨read', buffer', (_ | len) | e | _⟩
  · rfl
  · simp only [writeAll_map hg]
    split
    · rcases writeAll (E := E) n write (buffer'.take (len + 1)) with
        _ | ⟨write', _ | e | _⟩ <;> try rfl
      simp only [Option.map, Prod.map, id_eq]
      cases U64.add written (U64.ofUsize (len + 1)) <;> rfl
    · rfl
  · dsimp only
    split <;> rfl
  · rfl

/-- **`copy` respects maps of its reader and of its writer.** -/
theorem stackCopy_map [Target] [Read E R] [Read E R'] [Write E W] [Write E W'] {f : R → R'}
    {g : W → W'} (hf : ReadHom E f) (hg : WriteHom E g) (n : ℕ) (read : R) (write : W) :
    stackCopy (E := E) n (f read) (g write) =
      (stackCopy n read write).map (Prod.map f (Prod.map g id)) :=
  Loop.run_map (stackCopyBody_map hf hg) n (read, write, _, _)

omit [ErrorImpl E] in
theorem readInto_map [Target] [Read E R] [Read E R'] {f : R → R'} (hf : ReadHom E f)
    (guard : Guard) (r : R) :
    guard.readInto (E := E) (f r) = Prod.map f id (guard.readInto r) := by
  have h := hf r (guard.buf.bytes.drop guard.len)
  simp only [Prod.map, id_eq, Prod.ext_iff] at h
  obtain ⟨h1, h2, h3⟩ := h
  simp only [Guard.readInto, Prod.map, id_eq, h1, h2, h3]

theorem readToEndAnswer_map [Target] (f : R → R') (startLen : ℕ) (r : R) (guard : Guard)
    (answer : Outcome E ℕ) : readToEndAnswer startLen (f r) guard answer =
      (readToEndAnswer startLen r guard answer).map (Prod.map f id) (Prod.map f id) := by
  rcases answer with (_ | n) | e | _
  · rfl
  · simp only [readToEndAnswer]
    split <;> rfl
  · simp only [readToEndAnswer]
    split <;> rfl
  · rfl

/-- **`read_to_end` respects maps of its reader.** -/
theorem readToEnd_map [Target] [Alloc] [Read E R] [Read E R'] {f : R → R'} (hf : ReadHom E f)
    (n : ℕ) (r : R) (buf : Vec) :
    readToEnd (E := E) n (f r) buf = (readToEnd n r buf).map (Prod.map f id) := by
  refine Loop.loop_map (f := Prod.map f id) ?_ n (r, Guard.new buf)
  intro s
  obtain ⟨r, guard⟩ := s
  simp only [readToEndBody, Prod.map, id_eq]
  cases guard.ensureRoom with
  | none => rfl
  | some guard =>
    simp only [readInto_map hf guard r, Prod.map, id_eq]
    exact readToEndAnswer_map f _ _ _ _

end

/-! ### Records -/

/-- One call of `read`: the buffer it was offered, the buffer it left and its answer. -/
structure ReadCall (E : Type) where
  offered : List UInt8
  buf : List UInt8
  answer : Outcome E ℕ

/-- One call of `write`. -/
structure WriteCall (E : Type) where
  offered : List UInt8
  answer : Outcome E ℕ

/-- The answer is one that the trait allows: no more than was offered, and no panic. -/
def ReadCall.Honest (call : ReadCall E) : Prop :=
  match call.answer with
  | .ok n => n ≤ call.offered.length
  | .err _ => True
  | .panic => False

def WriteCall.Honest (call : WriteCall E) : Prop :=
  match call.answer with
  | .ok n => n ≤ call.offered.length
  | .err _ => True
  | .panic => False

/-- The bytes that a call delivered: `buf[..n]` of an answer `Ok(n)` that is within the buffer. -/
def ReadCall.delivered (call : ReadCall E) : List UInt8 :=
  match call.answer with
  | .ok n => if n ≤ call.offered.length then call.buf.take n else []
  | _ => []

/-- The bytes that a call accepted. -/
def WriteCall.accepted (call : WriteCall E) : List UInt8 :=
  match call.answer with
  | .ok n => if n ≤ call.offered.length then call.offered.take n else []
  | _ => []

theorem delivered_ok {offered buf : List UInt8} {n : ℕ} (h : n ≤ offered.length) :
    (⟨offered, buf, .ok n⟩ : ReadCall E).delivered = buf.take n := if_pos h

theorem accepted_ok {offered : List UInt8} {n : ℕ} (h : n ≤ offered.length) :
    (⟨offered, .ok n⟩ : WriteCall E).accepted = offered.take n := if_pos h

def delivered (log : List (ReadCall E)) : List UInt8 := log.flatMap ReadCall.delivered

def accepted (log : List (WriteCall E)) : List UInt8 := log.flatMap WriteCall.accepted

@[simp] theorem delivered_nil : delivered ([] : List (ReadCall E)) = [] := rfl
@[simp] theorem accepted_nil : accepted ([] : List (WriteCall E)) = [] := rfl

@[simp] theorem delivered_concat (log : List (ReadCall E)) (call : ReadCall E) :
    delivered (log ++ [call]) = delivered log ++ call.delivered := by
  simp [delivered]

@[simp] theorem accepted_concat (log : List (WriteCall E)) (call : WriteCall E) :
    accepted (log ++ [call]) = accepted log ++ call.accepted := by
  simp [accepted]

/-- A reader or a writer with the record of its calls. -/
structure Logged (C R : Type) where
  inner : R
  log : List C
  deriving DecidableEq

instance [Read E R] : Read E (Logged (ReadCall E) R) where
  read self buf :=
    let (inner, buf', answer) := Read.read self.inner buf
    (⟨inner, self.log ++ [⟨buf, buf', answer⟩]⟩, buf', answer)
  read_length self buf := Read.read_length self.inner buf

instance [Write E W] : Write E (Logged (WriteCall E) W) where
  write self buf :=
    let (inner, answer) := Write.write self.inner buf
    (⟨inner, self.log ++ [⟨buf, answer⟩]⟩, answer)
  flush self :=
    let (inner, u) := Write.flush self.inner
    (⟨inner, self.log⟩, u)

/-- A call to a reader with a record is recorded. -/
theorem log_of_read [Read E R] {r r' : Logged (ReadCall E) R} {buf buf' : List UInt8}
    {o : Outcome E ℕ} (h : Read.read r buf = (r', buf', o)) :
    r'.log = r.log ++ [⟨buf, buf', o⟩] := by
  have e : Read.read (E := E) r buf = (⟨(Read.read r.inner buf).1, r.log ++ [⟨buf,
      (Read.read r.inner buf).2.1, (Read.read r.inner buf).2.2⟩]⟩, (Read.read r.inner buf).2) := rfl
  rw [e, Prod.mk.injEq] at h
  obtain ⟨rfl, h⟩ := h
  simp only [h]

/-- A call to a writer with a record is recorded. -/
theorem log_of_write [Write E W] {w w' : Logged (WriteCall E) W} {buf : List UInt8}
    {o : Outcome E ℕ} (h : Write.write w buf = (w', o)) : w'.log = w.log ++ [⟨buf, o⟩] := by
  have e : Write.write (E := E) w buf = (⟨(Write.write w.inner buf).1, w.log ++ [⟨buf,
      (Write.write w.inner buf).2⟩]⟩, (Write.write w.inner buf).2) := rfl
  rw [e, Prod.mk.injEq] at h
  obtain ⟨rfl, h⟩ := h
  simp only [h]

/-- A record with earlier calls in front of it. -/
def Logged.behind {C : Type} (log : List C) (self : Logged C R) : Logged C R :=
  ⟨self.inner, log ++ self.log⟩

theorem writeHom_behind [Write E W] (log : List (WriteCall E)) :
    WriteHom E (Logged.behind log : Logged (WriteCall E) W → Logged (WriteCall E) W) := by
  intro self buf
  simp only [Logged.behind, Write.write, Prod.map, id_eq, List.append_assoc]

theorem readHom_logged [Read E R] : ReadHom E (Logged.inner : Logged (ReadCall E) R → R) :=
  fun _ _ => rfl

theorem writeHom_logged [Write E W] : WriteHom E (Logged.inner : Logged (WriteCall E) W → W) :=
  fun _ _ => rfl

/-- What is left of a run when the record is forgotten. -/
theorem Logged.of_map {C α : Type} {x : Option (Logged C R × α)} {r : R} {a : α}
    (h : x.map (Prod.map Logged.inner id) = some (r, a)) : ∃ log, x = some (⟨r, log⟩, a) := by
  obtain ⟨⟨⟨r', log⟩, a'⟩, rfl, he⟩ := Option.map_eq_some_iff.mp h
  simp only [Prod.map, id_eq, Prod.mk.injEq] at he
  obtain ⟨rfl, rfl⟩ := he
  exact ⟨log, rfl⟩

section

variable [ErrorImpl E]

/-- A run of `read_exact` is the run with records, when these are forgotten. -/
theorem readExact_logged [Read E R] {n : ℕ} {r r' : R} {buf buf' : List UInt8}
    {out : Outcome E Unit} (h : readExact n r buf = some (r', buf', out)) :
    ∃ log, readExact n (⟨r, []⟩ : Logged (ReadCall E) R) buf = some (⟨r', log⟩, buf', out) := by
  apply Logged.of_map
  exact (readExact_map readHom_logged n (⟨r, []⟩ : Logged (ReadCall E) R) buf).symm.trans h

/-- A run of `write_all` is the run with records, when these are forgotten. -/
theorem writeAll_logged [Write E W] {n : ℕ} {w w' : W} {buf : List UInt8} {out : Outcome E Unit}
    (h : writeAll n w buf = some (w', out)) :
    ∃ log, writeAll n (⟨w, []⟩ : Logged (WriteCall E) W) buf = some (⟨w', log⟩, out) := by
  apply Logged.of_map
  exact (writeAll_map writeHom_logged n (⟨w, []⟩ : Logged (WriteCall E) W) buf).symm.trans h

variable [Target]

/-- A run of `copy` is the run with records, when these are forgotten. -/
theorem stackCopy_logged [Read E R] [Write E W] {n : ℕ} {read read' : R} {write write' : W}
    {out : Outcome E UInt64} (h : stackCopy n read write = some (read', write', out)) :
    ∃ rlog wlog, stackCopy n (⟨read, []⟩ : Logged (ReadCall E) R)
      (⟨write, []⟩ : Logged (WriteCall E) W) = some (⟨read', rlog⟩, ⟨write', wlog⟩, out) := by
  have hm := stackCopy_map readHom_logged writeHom_logged n (⟨read, []⟩ : Logged (ReadCall E) R)
    (⟨write, []⟩ : Logged (WriteCall E) W)
  rw [show stackCopy (E := E) n read write = some (read', write', out) from h] at hm
  rcases hl : stackCopy n (⟨read, []⟩ : Logged (ReadCall E) R) (⟨write, []⟩ : Logged (WriteCall E) W)
    with _ | ⟨⟨read'', rlog⟩, ⟨write'', wlog⟩, out'⟩
  · rw [hl] at hm
    cases hm
  · rw [hl] at hm
    simp only [Option.map_some, Prod.map, id_eq, Option.some.injEq, Prod.mk.injEq] at hm
    obtain ⟨rfl, rfl, rfl⟩ := hm
    exact ⟨rlog, wlog, rfl⟩

/-- A run of `read_to_end` is the run with records, when these are forgotten. -/
theorem readToEnd_logged [Alloc] [Read E R] {n : ℕ} {r r' : R} {v v' : Vec} {out : Outcome E ℕ}
    (h : readToEnd n r v = some (r', v', out)) :
    ∃ log, readToEnd n (⟨r, []⟩ : Logged (ReadCall E) R) v = some (⟨r', log⟩, v', out) := by
  apply Logged.of_map
  exact (readToEnd_map readHom_logged n (⟨r, []⟩ : Logged (ReadCall E) R) v).symm.trans h

end

/-! ### Scripts -/

section

variable [Target]

/-- What a reader shows next. -/
inductive Event (E : Type) where
  | chunk (s : Slice) (ne_nil : s.bytes ≠ [])
  | error (e : E)
  deriving DecidableEq

/-- A reader that shows the chunks and the errors of a script, one after the other. -/
structure Script (E : Type) where
  events : List (Event E)
  deriving DecidableEq

namespace Script

/-- The chunk `s`, of which `amt` bytes have been used up, and what comes after it. -/
def behind (s : Slice) (amt : ℕ) (events : List (Event E)) : Script E :=
  if h : amt < s.bytes.length then
    ⟨.chunk (s.drop amt) (by
      rw [Slice.drop_bytes, ← List.length_pos_iff, List.length_drop]
      omega) :: events⟩
  else ⟨events⟩

def bytes : List (Event E) → List UInt8
  | [] => []
  | .chunk s _ :: events => s.bytes ++ bytes events
  | .error _ :: events => bytes events

theorem bytes_behind {s : Slice} {amt : ℕ} (h : amt ≤ s.bytes.length) (events : List (Event E)) :
    bytes (behind s amt events).events = s.bytes.drop amt ++ bytes events := by
  unfold behind
  split
  · rfl
  · rw [List.drop_of_length_le (by omega)]
    rfl

instance : Read E (Script E) where
  read self buf :=
    match self.events with
    | [] => (self, buf, .ok 0)
    | .chunk s _ :: events =>
      let len := min s.bytes.length buf.length
      (behind s len events, s.bytes.take len ++ buf.drop len, .ok len)
    | .error e :: events => (⟨events⟩, buf, .err e)
  read_length self buf := by
    obtain ⟨events⟩ := self
    cases events with
    | nil => rfl
    | cons event events =>
      cases event with
      | error e => rfl
      | chunk s hs =>
        simp only [List.length_append, List.length_take, List.length_drop]
        omega

instance : BufRead E (Script E) where
  fillBuf self :=
    match self.events with
    | [] => (self, .ok Slice.empty)
    | .chunk s _ :: _ => (self, .ok s)
    | .error e :: events => (⟨events⟩, .err e)
  consume self amt :=
    match self.events with
    | .chunk s _ :: events => if amt ≤ s.bytes.length then some (behind s amt events) else none
    | _ => if amt = 0 then some self else none

end Script

end

/-- A writer that gives the answers of a script, one after the other, and then takes everything. -/
structure Answers (E : Type) where
  answers : List (Outcome E ℕ)
  deriving DecidableEq

instance : Write E (Answers E) where
  write self buf :=
    match self.answers with
    | [] => (self, .ok buf.length)
    | answer :: answers => (⟨answers⟩, answer)
  flush self := (self, .ok ())

section

open Machine64

/-- The bytes 1, 2 and 3 in two pieces, with an interruption between them. -/
def Script.pieces : Script (Features.Error StdIo.plain .std) :=
  ⟨[.chunk ⟨[1, 2], by decide⟩ (by decide), .error (Error.ofErrorKind .interrupted),
    .chunk ⟨[3], by decide⟩ (by decide)]⟩

theorem Script.pieces_steady (e : Features.Error StdIo.plain .std)
    (h : .error e ∈ Script.pieces.events) : Error.isInterrupted e = true := by
  obtain rfl : e = Error.ofErrorKind .interrupted := by simpa [Script.pieces] using h
  exact (isInterrupted_fromKind StdIo.plain StdIo.plain_lawful .std .interrupted).mpr ⟨rfl, rfl⟩

end

/-- One byte is taken, then an interruption comes. -/
def Answers.pieces : Answers (Features.Error StdIo.plain .std) :=
  ⟨[.ok 1, .err (Error.ofErrorKind .interrupted)]⟩

end NotIo
