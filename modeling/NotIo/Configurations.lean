import NotIo.ErrorTypes
import NotIo.Lib.Client

/-!
# The configurations of the crate

`Error` is a `std::io::Error` in the configuration with `std`, and a kind in the others.

* `features_agree`: a program over the readers and writers of the crate does the same in every
  configuration.
* `allowStd_transparent`: in the one with `std`, what is read and written through `AllowStd` is what
  the reader and the writer inside read and write, with their own errors.
-/

namespace NotIo

/-! ### Programs -/

section

variable [Target]

/-- The readers of the crate that are buffered, in every configuration, with the `read_exact` that
they have. -/
inductive PortableReader :
    (R : Type) → (∀ E, BufRead E R) → (∀ E [ErrorImpl E], ReadExactImpl E R) → Prop
  | slice : PortableReader Slice (fun _ => inferInstance) fun _ _ => inferInstance
  | cursor (T : Type) [AsRef T] :
      PortableReader (Cursor T) (fun _ => inferInstance) fun _ _ => inferInstance
  | empty : PortableReader Empty (fun _ => inferInstance) fun _ _ => inferInstance
  | take {R : Type} [inst : ∀ E, BufRead E R] {own : ∀ E [ErrorImpl E], ReadExactImpl E R} :
      PortableReader R inst own →
        PortableReader (Take R) (fun _ => inferInstance) fun _ _ => inferInstance

/-- The writers of the crate. -/
inductive PortableWriter [Alloc] : (W : Type) → (∀ E [ErrorImpl E], Write E W) → Prop
  | slice : PortableWriter SliceMut fun _ => inferInstance
  | sink : PortableWriter Sink fun _ => inferInstance
  | vec : PortableWriter Vec fun _ => inferInstance
  | cursorSlice : PortableWriter (Cursor SliceMut) fun _ => inferInstance
  | cursorVec : PortableWriter (Cursor Vec) fun _ => inferInstance
  | cursorMutRef : PortableWriter (Cursor (MutRef Vec)) fun _ => inferInstance

theorem PortableReader.rel {R : Type} {inst : ∀ E, BufRead E R}
    {own : ∀ E [ErrorImpl E], ReadExactImpl E R} (h : PortableReader R inst own) {E F : Type}
    (Same : E → F → Prop) :
    BufReadRel (E := E) (F := F) (Eq : R → R → Prop) Same := by
  induction h with
  | slice => exact Slice.rel Same
  | cursor T => exact Cursor.rel Same
  | empty => exact Empty.rel Same
  | take _ ih => exact Take.rel Same ih

theorem PortableReader.readExact_rel {R : Type} {inst : ∀ E, BufRead E R}
    {own : ∀ E [ErrorImpl E], ReadExactImpl E R} (h : PortableReader R inst own) {E F : Type}
    [ErrorImpl E] [ErrorImpl F] {Same : E → F → Prop} (hE : SameErrors Same) :
    ReadExactRel E F R Same := by
  cases h with
  | slice => exact .of_provided (Slice.rel Same).read hE
  | cursor T => exact Cursor.readExact_rel hE
  | empty => exact .of_provided (Empty.rel Same).read hE
  | take h => exact .of_provided (Take.rel Same (h.rel Same)).read hE

theorem PortableWriter.rel [Alloc] {W : Type} {inst : ∀ E [ErrorImpl E], Write E W}
    (h : PortableWriter W inst) {E F : Type} [ErrorImpl E] [ErrorImpl F] {Same : E → F → Prop}
    (hE : SameErrors Same) : WriteRel (E := E) (F := F) (Eq : W → W → Prop) Same := by
  cases h with
  | slice => exact SliceMut.rel Same
  | sink => exact Sink.rel Same
  | vec => exact Vec.rel Same
  | cursorSlice => exact Cursor.sliceRel Same
  | cursorVec => exact Cursor.vecRel hE
  | cursorMutRef => exact Cursor.mutRefRel hE

end

/-- The kind of an error. -/
def Features.kind (io : StdIo) : (features : Features) → features.Error io → IoErrorKind
  | .none, ⟨.kind kind⟩ => ImplsStd.ioKind kind
  | .alloc, ⟨.kind kind⟩ => ImplsStd.ioKind kind
  | .std, ⟨.error err⟩ => io.kind err

/-- The errors of a kind, in two configurations. -/
def SameKind (io : StdIo) (f g : Features) (e : f.Error io) (e' : g.Error io) : Prop :=
  ∃ kind, kind ≠ .interrupted ∧ e = Error.ofErrorKind kind ∧ e' = Error.ofErrorKind kind

theorem sameKind_errors {io : StdIo} (hio : io.Lawful) (f g : Features) :
    SameErrors (SameKind io f g) where
  interrupted h := by
    obtain ⟨kind, hkind, rfl, rfl⟩ := h
    have hf := isInterrupted_fromKind io hio f kind
    have hg := isInterrupted_fromKind io hio g kind
    rw [Bool.eq_iff_iff]
    exact ⟨fun h => absurd (hf.mp h).2 hkind, fun h => absurd (hg.mp h).2 hkind⟩
  made kind hkind := ⟨kind, hkind, rfl, rfl⟩

theorem Features.kind_ofErrorKind {io : StdIo} (hio : io.Lawful) (f : Features) (kind : ErrorKind) :
    f.kind io (Error.ofErrorKind kind) = ImplsStd.ioKind kind := by
  cases f with
  | none => rfl
  | alloc => rfl
  | std => exact hio _

section

variable [Target] [Alloc] {E F R W K : Type}

/-- What a program asks of its reader and its writer; `n` is the fuel of a loop.  Of an error it sees
the kind. -/
inductive IoRequest (K : Type) : Type → Type
  | read (buf : List UInt8) : IoRequest K (List UInt8 × Outcome K ℕ)
  | readExact (n : ℕ) (buf : List UInt8) : IoRequest K (Option (List UInt8 × Outcome K Unit))
  | readToEnd (n : ℕ) (buf : Vec) : IoRequest K (Option (Vec × Outcome K ℕ))
  | readToString (n : ℕ) (buf : Str) : IoRequest K (Option (Vec × Outcome K ℕ))
  | fillBuf : IoRequest K (Outcome K Slice)
  | consume (amt : ℕ) : IoRequest K (Outcome K Unit)
  | readUntil (n : ℕ) (byte : UInt8) (buf : Vec) : IoRequest K (Option (Vec × Outcome K ℕ))
  | readLine (n : ℕ) (buf : Str) : IoRequest K (Option (Vec × Outcome K ℕ))
  | write (buf : List UInt8) : IoRequest K (Outcome K ℕ)
  | writeAll (n : ℕ) (buf : List UInt8) : IoRequest K (Option (Outcome K Unit))
  | copy (n : ℕ) : IoRequest K (Option (Outcome K UInt64))

/-- A program sees the kind of an error; without enough fuel the reader is left as it was. -/
def seenRead {α β : Type} (kind : E → K) (r : R) :
    Option (R × α × Outcome E β) → R × Option (α × Outcome K β)
  | none => (r, none)
  | some (r', a, out) => (r', some (a, out.mapErr kind))

/-- A program's requests, in a configuration. -/
def IoRequest.reply [ErrorImpl E] [BufRead E R] [ReadExactImpl E R] [Write E W] (kind : E → K)
    (s : R × W) {β : Type} : IoRequest K β → (R × W) × β
  | .read buf =>
    let (r, buf, out) := Read.read (E := E) s.1 buf
    ((r, s.2), buf, out.mapErr kind)
  | .readExact n buf =>
    let (r, a) := seenRead kind s.1 (ReadExactImpl.readExactImpl (E := E) n s.1 buf)
    ((r, s.2), a)
  | .readToEnd n buf =>
    let (r, a) := seenRead kind s.1 (NotIo.readToEnd (E := E) n s.1 buf)
    ((r, s.2), a)
  | .readToString n buf =>
    let (r, a) := seenRead kind s.1 (NotIo.readToString (E := E) n s.1 buf)
    ((r, s.2), a)
  | .fillBuf =>
    let (r, out) := BufRead.fillBuf (E := E) s.1
    ((r, s.2), out.mapErr kind)
  | .consume amt =>
    match BufRead.consume E s.1 amt with
    | some r => ((r, s.2), .ok ())
    | none => (s, .panic)
  | .readUntil n byte buf =>
    let (r, a) := seenRead kind s.1 (NotIo.readUntil (E := E) n s.1 byte buf)
    ((r, s.2), a)
  | .readLine n buf =>
    let (r, a) := seenRead kind s.1 (NotIo.readLine (E := E) n s.1 buf)
    ((r, s.2), a)
  | .write buf =>
    let (w, out) := Write.write (E := E) s.2 buf
    ((s.1, w), out.mapErr kind)
  | .writeAll n buf =>
    match NotIo.writeAll (E := E) n s.2 buf with
    | none => (s, none)
    | some (w, out) => ((s.1, w), some (out.mapErr kind))
  | .copy n =>
    match NotIo.copy (E := E) n s.1 s.2 with
    | none => (s, none)
    | some (r, w, out) => ((r, w), some (out.mapErr kind))

variable {Same : E → F → Prop} {kind : E → K} {kind' : F → K}

omit [Target] [Alloc] in
theorem Outcome.Rel.mapErr {α : Type} (hk : ∀ e e', Same e e' → kind e = kind' e')
    {out : Outcome E α} {out' : Outcome F α} (h : out.Rel Same out') :
    out.mapErr kind = out'.mapErr kind' := by
  cases h with
  | ok a => rfl
  | err he => exact congrArg Outcome.err (hk _ _ he)
  | panic => rfl

omit [Target] [Alloc] in
theorem seenRead_same {α β : Type} (hk : ∀ e e', Same e e' → kind e = kind' e') (r : R)
    {x : Option (R × α × Outcome E β)} {x' : Option (R × α × Outcome F β)}
    (h : Option.Rel (Alike Eq Eq Same) x x') : seenRead kind r x = seenRead kind' r x' := by
  cases h with
  | none => rfl
  | @some x x' hx =>
    obtain ⟨r₁, a, out⟩ := x
    obtain ⟨r₁', a', out'⟩ := x'
    obtain ⟨hr, ha, hout⟩ := hx
    simp only at hr ha hout
    subst hr ha
    simp only [seenRead, hout.mapErr hk]

/-- **Every request is replied to alike.** -/
theorem IoRequest.reply_same [ErrorImpl E] [ErrorImpl F] [BufRead E R] [BufRead F R]
    [ReadExactImpl E R] [ReadExactImpl F R] [Write E W] [Write F W] (hE : SameErrors Same)
    (hS : BufReadRel (E := E) (F := F) (Eq : R → R → Prop) Same) (hX : ReadExactRel E F R Same)
    (hT : WriteRel (E := E) (F := F) (Eq : W → W → Prop) Same)
    (hk : ∀ e e', Same e e' → kind e = kind' e') (s : R × W) {β : Type}
    (q : IoRequest K β) : q.reply kind s = q.reply kind' s := by
  obtain ⟨r, w⟩ := s
  cases q with
  | read buf =>
    obtain ⟨hr, hbuf, hout⟩ := hS.read r r buf rfl
    simp only [IoRequest.reply, hr, hbuf, hout.mapErr hk]
  | readExact n buf =>
    simp only [IoRequest.reply, seenRead_same hk r (hX n r buf)]
  | readToEnd n buf =>
    simp only [IoRequest.reply, seenRead_same hk r (readToEnd_rel hS.read hE n rfl buf)]
  | readToString n buf =>
    simp only [IoRequest.reply, seenRead_same hk r (readToString_rel hS.read hE n rfl buf)]
  | fillBuf =>
    obtain ⟨hr, hout⟩ := hS.fillBuf r r rfl
    simp only [IoRequest.reply, hr, hout.mapErr hk]
  | consume amt =>
    have hends := hS.consume r r amt rfl
    simp only [IoRequest.reply]
    generalize BufRead.consume E r amt = x at hends ⊢
    generalize BufRead.consume F r amt = x' at hends ⊢
    cases hends with
    | none => rfl
    | some hr => rw [hr]
  | readUntil n byte buf =>
    simp only [IoRequest.reply, seenRead_same hk r (readUntil_rel hS hE n rfl byte buf)]
  | readLine n buf =>
    simp only [IoRequest.reply, seenRead_same hk r (readLine_rel hS hE n rfl buf)]
  | write buf =>
    obtain ⟨hw, hout⟩ := hT w w buf rfl
    simp only [IoRequest.reply, hw, hout.mapErr hk]
  | writeAll n buf =>
    have hends := writeAll_rel hT hE n rfl buf (w := w)
    simp only [IoRequest.reply]
    generalize NotIo.writeAll (E := E) n w buf = x at hends ⊢
    generalize NotIo.writeAll (E := F) n w buf = x' at hends ⊢
    cases hends with
    | none => rfl
    | @some x x' hx =>
      obtain ⟨w₁, out⟩ := x
      obtain ⟨w₁', out'⟩ := x'
      obtain ⟨hw, hout⟩ := hx
      simp only at hw hout
      subst hw
      simp only [hout.mapErr hk]
  | copy n =>
    have hends := stackCopy_rel hS.read hT hE n rfl rfl (r := r) (w := w)
    simp only [IoRequest.reply, NotIo.copy]
    generalize stackCopy (E := E) n r w = x at hends ⊢
    generalize stackCopy (E := F) n r w = x' at hends ⊢
    cases hends with
    | none => rfl
    | @some x x' hx =>
      obtain ⟨r₁, w₁, out⟩ := x
      obtain ⟨r₁', w₁', out'⟩ := x'
      obtain ⟨hr, hw, hout⟩ := hx
      simp only at hr hw hout
      subst hr hw
      simp only [hout.mapErr hk]

/-- A program over a reader and a writer. -/
abbrev IoProgram (K B : Type) := Client (IoRequest K) id B

def IoProgram.run [ErrorImpl E] [BufRead E R] [ReadExactImpl E R] [Write E W] {B : Type}
    (kind : E → K) (program : IoProgram K B) (s : R × W) : (R × W) × B :=
  Client.serve (fun _ s q => IoRequest.reply kind s q) s program

/-- **A program is the same in every configuration.**  Over the readers and writers of the crate it
gets the same replies, errors of the same kinds, and leaves the same behind, whatever it asks for
and in whatever order. -/
theorem features_agree {io : StdIo} (hio : io.Lawful) (f g : Features)
    {instR : ∀ E, BufRead E R} {own : ∀ E [ErrorImpl E], ReadExactImpl E R}
    {instW : ∀ E [ErrorImpl E], Write E W} (hR : PortableReader R instR own)
    (hW : PortableWriter W instW) {B : Type} (program : IoProgram IoErrorKind B) (s : R × W) :
    program.run (f.kind io) s = program.run (g.kind io) s := by
  have hE := sameKind_errors hio f g
  have hk : ∀ e e', SameKind io f g e e' → f.kind io e = g.kind io e' := by
    intro e e' h
    obtain ⟨kind, -, rfl, rfl⟩ := h
    rw [Features.kind_ofErrorKind hio, Features.kind_ofErrorKind hio]
  have hstep : ∀ β (s t : R × W) (q : IoRequest IoErrorKind β), s = t →
      (q.reply (f.kind io) s).2 = (q.reply (g.kind io) t).2 ∧
        (q.reply (f.kind io) s).1 = (q.reply (g.kind io) t).1 := by
    intro β s t q hst
    subst hst
    rw [IoRequest.reply_same hE (hR.rel (SameKind io f g)) (hR.readExact_rel hE) (hW.rel hE) hk s q]
    exact ⟨rfl, rfl⟩
  obtain ⟨hb, hs⟩ := Client.serve_rel Eq hstep program (rfl : s = s)
  exact Prod.ext hs hb

end

open Machine64 in
/-- A record is read from a `Take`, and what is left is copied behind the end of a vector. -/
def recordThenCopy : IoProgram IoErrorKind (Option (Outcome IoErrorKind UInt64)) :=
  .ask (.readUntil 4 0 Vec.new) fun _ => .ask (.copy 4) fun copied => .ret copied

open Machine64 in
theorem features_agree_take :
    recordThenCopy.run (Features.alloc.kind StdIo.plain)
        ((⟨⟨⟨[1, 0, 2, 3], by decide⟩, 0⟩, 3⟩ : Take (Cursor Slice)), (⟨Vec.new, 2⟩ : Cursor Vec))
      = recordThenCopy.run (Features.std.kind StdIo.plain)
        ((⟨⟨⟨[1, 0, 2, 3], by decide⟩, 0⟩, 3⟩ : Take (Cursor Slice)), (⟨Vec.new, 2⟩ : Cursor Vec)) :=
  features_agree StdIo.plain_lawful .alloc .std (.take (.cursor Slice)) .cursorVec recordThenCopy _

/-! ### `AllowStd` with `std` (`impls_std.rs`) -/

namespace ImplsStd

variable {io : StdIo} {R W : Type}

/-- `impl From<io::Error> for Error`. -/
def ofIo (err : io.Error) : Error io := ⟨.error err⟩

/-- `impl From<Error> for io::Error`. -/
def intoIo (err : Error io) : io.Error :=
  match err.inner with
  | .error io => io

/-- A `std::io::Error` as it is, which `std::io::Read` and `std::io::Write` have. -/
@[reducible] def ioErrors (io : StdIo) : ErrorImpl io.Error where
  isInterruptedImpl err := decide (io.kind err = .interrupted)
  fromKindImpl kind := io.ofKind (ioKind kind)

/-- `impl<R: io::Read> Read for AllowStd<R>`. -/
@[reducible] def allowStdRead (io : StdIo) (R : Type) [Read io.Error R] :
    Read (Error io) (AllowStd R) where
  read self buf :=
    let (val, buf, n) := Read.read (E := io.Error) self.val buf
    (⟨val⟩, buf, n.mapErr ofIo)
  read_length self buf := Read.read_length (E := io.Error) self.val buf

/-- `impl<W: io::Write> Write for AllowStd<W>`. -/
@[reducible] def allowStdWrite (io : StdIo) (W : Type) [Write io.Error W] :
    Write (Error io) (AllowStd W) where
  write self buf :=
    let (val, n) := Write.write (E := io.Error) self.val buf
    (⟨val⟩, n.mapErr ofIo)
  flush self :=
    let (val, u) := Write.flush (E := io.Error) self.val
    (⟨val⟩, u.mapErr ofIo)

/-- The error is the wrapped one. -/
def Wraps (io : StdIo) (err : Error io) (err' : io.Error) : Prop :=
  intoIo err = err'

attribute [local instance] ioErrors allowStdRead allowStdWrite

theorem wraps_errors (io : StdIo) : SameErrors (Wraps io) where
  interrupted h := by
    cases h
    rfl
  made _ _ := rfl

theorem mapErr_ofIo {α : Type} (out : Outcome io.Error α) : (out.mapErr ofIo).Rel (Wraps io) out := by
  cases out with
  | ok a => exact .ok a
  | err e => exact .err rfl
  | panic => exact .panic

theorem allowStd_read [Read io.Error R] :
    ReadRel (fun (r : AllowStd R) r' => r.val = r') (Wraps io) := by
  intro r r' buf h
  cases h
  exact ⟨rfl, rfl, mapErr_ofIo _⟩

theorem allowStd_write [Write io.Error W] :
    WriteRel (fun (w : AllowStd W) w' => w.val = w') (Wraps io) := by
  intro w w' buf h
  cases h
  exact ⟨rfl, mapErr_ofIo _⟩

/-- **Nothing is seen of an `AllowStd`**: what is read, written and copied through it, and every
error when it is made a `std::io::Error` again, is what comes of the reader and the writer inside. -/
theorem allowStd_transparent [Target] [Alloc] [Read io.Error R] [Write io.Error W] (n : ℕ)
    (r : AllowStd R) (w : AllowStd W) :
    (∀ buf, Option.Rel (Alike (fun r r' => r.val = r') Eq (Wraps io)) (readExact n r buf)
      (readExact n r.val buf)) ∧
    (∀ buf, Option.Rel (Alike (fun r r' => r.val = r') Eq (Wraps io)) (readToEnd n r buf)
      (readToEnd n r.val buf)) ∧
    (∀ buf, Option.Rel (Alike (fun r r' => r.val = r') Eq (Wraps io)) (readToString n r buf)
      (readToString n r.val buf)) ∧
    (∀ buf, Option.Rel (fun x x' => x.1.val = x'.1 ∧ x.2.Rel (Wraps io) x'.2) (writeAll n w buf)
      (writeAll n w.val buf)) ∧
    Option.Rel (Alike (fun r r' => r.val = r') (fun w w' => w.val = w') (Wraps io)) (copy n r w)
      (copy n r.val w.val) := by
  have hE := wraps_errors io
  refine ⟨?_, ?_, ?_, ?_, ?_⟩
  · exact readExact_rel allowStd_read hE n rfl
  · exact readToEnd_rel allowStd_read hE n rfl
  · exact readToString_rel allowStd_read hE n rfl
  · exact writeAll_rel allowStd_write hE n rfl
  · exact stackCopy_rel allowStd_read allowStd_write hE n rfl rfl

end ImplsStd

end NotIo
