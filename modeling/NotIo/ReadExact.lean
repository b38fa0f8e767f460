import NotIo.ReadToEnd

/-!
# `read_exact`

`Filling buf log filled rest` is the invariant of the provided loop: the part of the buffer
that has been left behind holds what the reader has delivered, and the rest of it is still
to be filled.  A turn keeps it (`Filling.step`); the loop is left when nothing is to be
filled any more (`Filling.done`), or with a call that does not let it go on
(`Filling.exit`).

* `readExact_exact`: how the call ends, and what it leaves in the buffer.
-/

namespace NotIo

variable {E R : Type} [ErrorImpl E]

/-! ### The calls -/

/-- The answer of the call makes `read_exact` fail with `e`. -/
def ReadCall.Fails (call : ReadCall E) (e : E) : Prop :=
  (call.answer = .ok 0 ∧ e = Error.ofErrorKind .unexpectedEof) ∨
    (call.answer = .err e ∧ Error.isInterrupted e = false)

/-- How the loop ends when the answer of a call does not let it go on. -/
def ReadCall.exactExit (call : ReadCall E) : Outcome E Unit :=
  match call.answer with
  | .ok 0 => .err (Error.ofErrorKind .unexpectedEof)
  | .ok _ => .panic
  | .err e => .err e
  | .panic => .panic

omit [ErrorImpl E] in
/-- The call has written only what it reports. -/
def ReadCall.Tidy (call : ReadCall E) : Prop :=
  match call.answer with
  | .ok n => call.buf.drop n = call.offered.drop n
  | _ => call.buf = call.offered

omit [ErrorImpl E] in
/-- The call reports that it has read something. -/
def ReadCall.progresses (call : ReadCall E) : Bool :=
  match call.answer with
  | .ok (_ + 1) => true
  | _ => false

namespace ReadCall

variable {call : ReadCall E}

theorem not_continues_of_fails {e : E} (h : call.Fails e) : ¬ call.Continues := by
  rcases h with ⟨ha, -⟩ | ⟨ha, hi⟩
  · simp [Continues, ha]
  · simp [Continues, ha, hi]

theorem honest_of_continues (h : call.Continues) : call.Honest := by
  rcases ha : call.answer with n | e | _
  · simp only [Continues, ha] at h
    simpa only [Honest, ha] using h.2
  · simp only [Honest, ha]
  · simp only [Continues, ha] at h

theorem exactExit_eq_err_iff (h : ¬ call.Continues) (e : E) :
    call.exactExit = .err e ↔ call.Fails e := by
  unfold exactExit Fails
  rcases ha : call.answer with (_ | n) | e' | _
  · simp only [Outcome.err.injEq, true_and, reduceCtorEq, false_and, or_false]
    exact eq_comm
  · simp
  · have hi : Error.isInterrupted e' = false := by simpa [Continues, ha] using h
    simp only [Outcome.err.injEq, reduceCtorEq, false_and, false_or]
    exact ⟨fun he => ⟨he, he ▸ hi⟩, fun he => he.1⟩
  · simp

theorem exactExit_eq_panic_iff (h : ¬ call.Continues) : call.exactExit = .panic ↔ ¬ call.Honest := by
  unfold exactExit Honest
  rcases ha : call.answer with (_ | n) | e' | _
  · simp
  · simp only [Continues, ha, not_and] at h
    simpa using h (Nat.succ_pos n)
  · simp
  · simp

theorem exactExit_ne_ok (call : ReadCall E) : call.exactExit ≠ .ok () := by
  unfold exactExit
  rcases call.answer with (_ | n) | e | _ <;> simp

/-- A call that goes on and has written only what it reports leaves the rest of the buffer
as it was. -/
theorem drop_delivered (h : call.Continues) (ht : call.Tidy)
    (hlen : call.buf.length = call.offered.length) :
    call.buf.drop call.delivered.length = call.offered.drop call.delivered.length := by
  rcases ha : call.answer with n | e | _
  · simp only [Continues, ha] at h
    simp only [Tidy, ha] at ht
    have hn : call.delivered.length = n := by
      simp only [delivered, ha, if_pos h.2, List.length_take]
      omega
    rw [hn, ht]
  · simp only [Tidy, ha] at ht
    rw [ht]
  · simp only [Continues, ha] at h

/-- A call that goes on delivers something when it says so. -/
theorem progress_le (h : call.Continues) (hlen : call.buf.length = call.offered.length) :
    [call].countP progresses ≤ call.delivered.length := by
  rcases ha : call.answer with (_ | n) | e | _
  · simp [progresses, ha]
  · simp only [Continues, ha] at h
    simp only [List.countP_cons, List.countP_nil, progresses, ha, if_true, delivered, if_pos h.2,
      List.length_take]
    omega
  · simp [progresses, ha]
  · simp [progresses, ha]

end ReadCall

/-! ### What the calls decide -/

/-- What `read_exact` into `buf` does: `log` has the calls that it made to the reader, `buf'`
is the buffer that it leaves, `out` is how it ended. -/
structure ReadExactSpec (buf buf' : List UInt8) (log : List (ReadCall E)) (out : Outcome E Unit) :
    Prop where
  length : buf'.length = buf.length
  delivered_prefix : delivered log <+: buf'
  ok_iff : out = .ok () ↔ (delivered log).length = buf.length
  ok_iff_continues : out = .ok () ↔ ∀ call ∈ log, call.Continues
  ok_exact : out = .ok () → buf' = delivered log
  short : out ≠ .ok () → (delivered log).length < buf.length
  kept : out ≠ .panic → (∀ call ∈ log, call.Tidy) →
    buf' = delivered log ++ buf.drop (delivered log).length
  err_iff : ∀ e, out = .err e ↔ ∃ last, log.getLast? = some last ∧ last.Fails e
  panic_iff : out = .panic ↔ ∃ call ∈ log, ¬ call.Honest
  offered_ne : ∀ call ∈ log, call.offered ≠ []
  untouched : buf = [] → log = []
  progress : log.countP ReadCall.progresses ≤ buf.length

/-- **The invariant of the loop**: what has been left behind was delivered, and the rest of
the buffer is to be filled. -/
structure Filling (buf : List UInt8) (log : List (ReadCall E)) (filled rest : List UInt8) : Prop where
  behind : filled = delivered log
  length : filled.length + rest.length = buf.length
  continues : ∀ call ∈ log, call.Continues
  offered_ne : ∀ call ∈ log, call.offered ≠ []
  untouched : buf = [] → log = []
  kept : (∀ call ∈ log, call.Tidy) → rest = buf.drop filled.length
  progress : log.countP ReadCall.progresses ≤ filled.length

namespace Filling

variable {buf filled rest : List UInt8} {log : List (ReadCall E)} {call : ReadCall E}

theorem start (buf : List UInt8) : Filling (E := E) buf [] [] buf :=
  ⟨rfl, by simp, by simp, by simp, fun _ => rfl, fun _ => rfl, by simp⟩

/-- A call with something to fill is made into a buffer that was not empty. -/
theorem buf_ne (h : Filling buf log filled rest) (hne : rest ≠ []) : buf ≠ [] := by
  have hlen := h.length
  have hpos := List.length_pos_of_ne_nil hne
  exact List.ne_nil_of_length_pos (by omega)

omit [ErrorImpl E] in
theorem forall_mem_concat {P : ReadCall E → Prop} (h : ∀ c ∈ log, P c) (hcall : P call) :
    ∀ c ∈ log ++ [call], P c := by
  intro c hmem
  rw [List.mem_append, List.mem_singleton] at hmem
  rcases hmem with hmem | rfl
  · exact h c hmem
  · exact hcall

/-- A call that goes on. -/
theorem step (h : Filling buf log filled rest) (hne : rest ≠ []) (hoff : call.offered = rest)
    (hlen : call.buf.length = rest.length) (ho : call.Continues) :
    Filling buf (log ++ [call]) (filled ++ call.delivered)
      (call.buf.drop call.delivered.length) := by
  have hbuf := h.length
  have hcall : call.buf.length = call.offered.length := by rw [hlen, hoff]
  have hle : call.delivered.length ≤ call.buf.length := by
    unfold ReadCall.delivered
    split
    · split
      · exact List.length_take_le' _ _
      · exact Nat.zero_le _
    · exact Nat.zero_le _
  refine ⟨?_, ?_, forall_mem_concat h.continues ho, forall_mem_concat h.offered_ne (hoff ▸ hne),
    fun hb => absurd hb (h.buf_ne hne), ?_, ?_⟩
  · rw [delivered_concat, h.behind]
  · rw [List.length_append, List.length_drop]
    omega
  · intro ht
    have hlog := h.kept fun c hc => ht c (List.mem_append_left _ hc)
    have hlast := ht call (List.mem_append_right _ (List.mem_singleton_self _))
    rw [call.drop_delivered ho hlast hcall, hoff, hlog, List.drop_drop, List.length_append]
  · have hprog := call.progress_le ho hcall
    have hlog := h.progress
    rw [List.countP_append, List.length_append]
    omega

/-- Nothing is to be filled any more. -/
theorem done (h : Filling buf log filled []) : ReadExactSpec buf filled log (.ok ()) := by
  have hlen : filled.length = buf.length := by simpa using h.length
  have hdel : (delivered log).length = buf.length := by rw [← h.behind, hlen]
  refine ⟨hlen, h.behind ▸ List.prefix_rfl, ⟨fun _ => hdel, fun _ => rfl⟩,
    ⟨fun _ => h.continues, fun _ => rfl⟩, fun _ => h.behind, fun hne => absurd rfl hne, ?_,
    fun e => ⟨nofun, ?_⟩, ⟨nofun, ?_⟩, h.offered_ne, h.untouched, hlen ▸ h.progress⟩
  · intro _ _
    rw [← h.behind, hlen, List.drop_length, List.append_nil]
  · intro h'
    obtain ⟨last, hlast, hfails⟩ := h'
    exact absurd (h.continues last (List.mem_of_getLast? hlast))
      (ReadCall.not_continues_of_fails hfails)
  · intro h'
    obtain ⟨call, hmem, hdis⟩ := h'
    exact absurd (ReadCall.honest_of_continues (h.continues call hmem)) hdis

/-- A call that ends the loop delivers nothing. -/
theorem exit (h : Filling buf log filled rest) (hne : rest ≠ []) (hoff : call.offered = rest)
    (hlen : call.buf.length = rest.length) (ho : ¬ call.Continues) :
    ReadExactSpec buf (filled ++ call.buf) (log ++ [call]) call.exactExit := by
  have hbuf := h.length
  have hpos := List.length_pos_of_ne_nil hne
  have hdel : delivered (log ++ [call]) = filled := by
    rw [delivered_concat, ReadCall.delivered_of_not_continues ho, List.append_nil, h.behind]
  have hmem : call ∈ log ++ [call] := List.mem_append_right _ (List.mem_singleton_self _)
  have hnot : call.exactExit ≠ .ok () := ReadCall.exactExit_ne_ok _
  refine ⟨?_, ?_, ⟨fun hk => absurd hk hnot, ?_⟩, ⟨fun hk => absurd hk hnot, ?_⟩,
    fun hk => absurd hk hnot, ?_, ?_, ?_, ?_, forall_mem_concat h.offered_ne (hoff ▸ hne),
    fun hb => absurd hb (h.buf_ne hne), ?_⟩
  · rw [List.length_append]
    omega
  · rw [hdel]
    exact List.prefix_append _ _
  · intro hk
    rw [hdel] at hk
    omega
  · intro hall
    exact absurd (hall call hmem) ho
  · intro _
    rw [hdel]
    omega
  · intro hp ht
    have hlast := ht call hmem
    have hrest : call.buf = rest := by
      rcases ha : call.answer with (_ | n) | e | _
      · simpa [ReadCall.Tidy, ha, hoff] using hlast
      · exact absurd (by simp [ReadCall.exactExit, ha]) hp
      · simpa [ReadCall.Tidy, ha, hoff] using hlast
      · exact absurd (by simp [ReadCall.exactExit, ha]) hp
    rw [hdel, hrest, ← h.kept fun c hc => ht c (List.mem_append_left _ hc)]
  · intro e
    rw [ReadCall.exactExit_eq_err_iff ho, List.getLast?_concat]
    simp
  · rw [ReadCall.exactExit_eq_panic_iff ho]
    constructor
    · intro hdis
      exact ⟨call, hmem, hdis⟩
    · intro h'
      obtain ⟨c, hc, hdis⟩ := h'
      rw [List.mem_append, List.mem_singleton] at hc
      rcases hc with hc | rfl
      · exact absurd (ReadCall.honest_of_continues (h.continues c hc)) hdis
      · exact hdis
  · have hprog := h.progress
    have hone := List.countP_le_length (p := ReadCall.progresses) (l := [call])
    rw [List.countP_append]
    rw [List.length_singleton] at hone
    omega

end Filling

/-! ### The loop -/

variable [Read E R]

/-- What a turn of the loop comes to. -/
def ExactSpecTurn (buf : List UInt8) :
    Loop.Step (Logged (ReadCall E) R × List UInt8 × List UInt8)
      (Logged (ReadCall E) R × List UInt8 × Outcome E Unit) → Prop
  | .next (r, filled, rest) => Filling buf r.log filled rest
  | .done (r, buf', out) => ReadExactSpec buf buf' r.log out

/-- **A turn keeps the invariant, and leaves the loop as it should.** -/
theorem readExactBody_spec {buf filled rest : List UInt8} {r : Logged (ReadCall E) R}
    (h : Filling buf r.log filled rest) : ExactSpecTurn buf (readExactBody (r, filled, rest)) := by
  cases rest with
  | nil =>
    simp only [readExactBody, List.isEmpty_nil, if_true, List.append_nil]
    exact h.done
  | cons b rest =>
    rcases hr : Read.read (E := E) r (b :: rest) with ⟨r', rest', o⟩
    have hlen := read_length_of_eq hr
    have hlog := log_of_read hr
    have hnext : (⟨b :: rest, rest', o⟩ : ReadCall E).Continues →
        Filling buf r'.log (filled ++ (⟨b :: rest, rest', o⟩ : ReadCall E).delivered)
          (rest'.drop (⟨b :: rest, rest', o⟩ : ReadCall E).delivered.length) := by
      intro ho
      rw [hlog]
      exact h.step (List.cons_ne_nil b rest) rfl hlen ho
    have hexit : ¬ (⟨b :: rest, rest', o⟩ : ReadCall E).Continues →
        ReadExactSpec buf (filled ++ rest') r'.log (⟨b :: rest, rest', o⟩ : ReadCall E).exactExit := by
      intro ho
      rw [hlog]
      exact h.exit (List.cons_ne_nil b rest) rfl hlen ho
    simp only [readExactBody, List.isEmpty_cons, Bool.false_eq_true, if_false, hr]
    rcases o with (_ | n) | e | _
    · exact hexit (by simp [ReadCall.Continues])
    · by_cases hn : n + 1 ≤ rest'.length
      · have hle : n + 1 ≤ (b :: rest).length := by omega
        have htake : (rest'.take (n + 1)).length = n + 1 := by
          rw [List.length_take]
          omega
        have hstep := hnext ⟨Nat.succ_pos n, hle⟩
        rw [delivered_ok hle, htake] at hstep
        simp only [if_pos hn]
        exact hstep
      · simp only [if_neg hn]
        exact hexit (by simp only [ReadCall.Continues]; omega)
    · by_cases hi : Error.isInterrupted e = true
      · have hstep := hnext hi
        simp only [ReadCall.delivered, List.append_nil, List.length_nil, List.drop_zero] at hstep
        simp only [if_pos hi]
        exact hstep
      · simp only [if_neg hi]
        exact hexit hi
    · exact hexit (by simp [ReadCall.Continues])

/-- A turn that goes round makes one call. -/
theorem log_length_of_readExactBody {s s' : Logged (ReadCall E) R × List UInt8 × List UInt8}
    (h : readExactBody (E := E) s = .next s') : s'.1.log.length = s.1.log.length + 1 := by
  obtain ⟨r, filled, rest⟩ := s
  cases rest with
  | nil => cases h
  | cons b rest =>
    rcases hr : Read.read (E := E) r (b :: rest) with ⟨r', rest', o⟩
    have hlog : r'.log.length = r.log.length + 1 := by
      rw [log_of_read hr, List.length_append, List.length_singleton]
    simp only [readExactBody, List.isEmpty_cons, Bool.false_eq_true, if_false, hr] at h
    rcases o with (_ | n) | e | _
    · cases h
    · by_cases hn : n + 1 ≤ rest'.length
      · simp only [if_pos hn, Loop.Step.next.injEq] at h
        exact h ▸ hlog
      · simp only [if_neg hn, reduceCtorEq] at h
    · by_cases hi : Error.isInterrupted e = true
      · simp only [if_pos hi, Loop.Step.next.injEq] at h
        exact h ▸ hlog
      · simp only [if_neg hi, reduceCtorEq] at h
    · cases h

/-- **`read_exact` takes exactly what is asked for, or reports why not.**  As long as it has not
come to an end every answer has let it go on, and when the buffer is full it is over. -/
theorem readExact_exact (fuel : ℕ) (r : R) (buf : List UInt8) :
    (∀ r' buf' out, readExact (E := E) fuel r buf = some (r', buf', out) →
      ∃ log, readExact fuel (⟨r, []⟩ : Logged (ReadCall E) R) buf = some (⟨r', log⟩, buf', out) ∧
        ReadExactSpec buf buf' log out) ∧
    (readExact (E := E) fuel r buf = none →
      ∃ (r' : Logged (ReadCall E) R) (filled rest : List UInt8),
        Loop.after (readExactBody (E := E)) fuel ((⟨r, []⟩ : Logged (ReadCall E) R), [], buf)
          = some (r', filled, rest) ∧
        r'.log.length = fuel ∧ Filling buf r'.log filled rest ∧
        ((delivered r'.log).length = buf.length →
          readExact (E := E) (fuel + 1) r buf = some (r'.inner, delivered r'.log, .ok ()))) := by
  have hstart : ExactSpecTurn buf (.next ((⟨r, []⟩ : Logged (ReadCall E) R), [], buf)) :=
    Filling.start buf
  constructor
  · intro r' buf' out h
    obtain ⟨log, hl⟩ := readExact_logged h
    exact ⟨log, hl, Loop.loop_spec (ExactSpecTurn buf) (fun _ hs => readExactBody_spec hs) hstart hl⟩
  · intro h
    obtain ⟨⟨r', filled, rest⟩, hafter⟩ := Loop.after_of_map
      (readExact_map readHom_logged fuel (⟨r, []⟩ : Logged (ReadCall E) R) buf) h
    obtain ⟨hlen, hfill⟩ : r'.log.length = 0 + fuel ∧ Filling buf r'.log filled rest :=
      Loop.after_invariant (fun k s => s.1.log.length = k ∧ Filling buf s.1.log s.2.1 s.2.2)
      (fun k s s' hs hb => by
        have hturn : ExactSpecTurn buf (.next s') := hb ▸ readExactBody_spec hs.2
        exact ⟨by rw [log_length_of_readExactBody hb, hs.1], hturn⟩)
      (k := 0) ⟨rfl, Filling.start buf⟩ hafter
    refine ⟨r', filled, rest, hafter, by simpa using hlen, hfill, ?_⟩
    intro hfull
    obtain rfl : rest = [] := by
      have hsum := hfill.length
      have hfilled := congrArg List.length hfill.behind
      exact List.eq_nil_of_length_eq_zero (by omega)
    have hrun : readExact (E := E) (fuel + 1) (⟨r, []⟩ : Logged (ReadCall E) R) buf
        = some (r', filled, .ok ()) := by
      refine (Loop.loop_of_after hafter 1).trans (Loop.loop_done ?_ 0)
      simp [readExactBody]
    have hmap := readExact_map readHom_logged (fuel + 1) (⟨r, []⟩ : Logged (ReadCall E) R) buf
    rw [hrun] at hmap
    rw [← hfill.behind]
    exact hmap

open Machine64 in
/-- A slice of one byte does not fill a buffer of two. -/
theorem readExact_exact_slice :
    ∃ log : List (ReadCall ImplsNostd.Error), readExact (E := ImplsNostd.Error) 3
        (⟨⟨[0x41], by decide⟩, []⟩ : Logged (ReadCall ImplsNostd.Error) Slice) [7, 8]
        = some (⟨Slice.empty, log⟩, [0x41, 8], .err ⟨.kind .unexpectedEof⟩) ∧
      ReadExactSpec [7, 8] [0x41, 8] log (.err ⟨.kind .unexpectedEof⟩) :=
  (readExact_exact (E := ImplsNostd.Error) 3 (⟨[0x41], by decide⟩ : Slice) [7, 8]).1 Slice.empty [0x41, 8]
    (.err ⟨.kind .unexpectedEof⟩) (by decide +kernel)

end NotIo
