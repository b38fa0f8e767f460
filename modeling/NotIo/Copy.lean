import NotIo.WriteAll

/-!
# `copy`

`Copying rlog wlog buffer written` is the invariant of the loop of `stack_copy`: between
two turns the writer has accepted all that the reader has delivered.  The chunk of a turn
is handed to `write_all`, of which `WriteAllSpec` says what is left over when it fails.

* `copy_loses_nothing`: what the reader delivered and what the writer accepted, on every
  exit.
-/

namespace NotIo

section

variable {E R W : Type} [ErrorImpl E]

/-! ### What the calls decide -/

/-- The last call to the reader failed with `e`. -/
def ReaderFails (rlog : List (ReadCall E)) (e : E) : Prop :=
  ∃ last, rlog.getLast? = some last ∧ last.answer = .err e ∧ Error.isInterrupted e = false

/-- The last call to the writer failed with `e`, or stored nothing of a buffer that is not
empty. -/
def WriterFails (wlog : List (WriteCall E)) (e : E) : Prop :=
  ∃ last, wlog.getLast? = some last ∧ last.offered ≠ [] ∧ last.Fails e

/-- What `copy` does: `rlog` and `wlog` have the calls to the reader and to the writer,
`out` is how it ended. -/
structure CopySpec (rlog : List (ReadCall E)) (wlog : List (WriteCall E))
    (out : Outcome E UInt64) : Prop where
  accepted_prefix : accepted wlog <+: delivered rlog
  gap : (delivered rlog).length - (accepted wlog).length ≤ defaultStackBufferSize
  ok : ∀ n, out = .ok n →
    (∃ last, rlog.getLast? = some last ∧ last.answer = .ok 0) ∧
    accepted wlog = delivered rlog ∧
    ((delivered rlog).length < 2 ^ 64 → n.toNat = (delivered rlog).length)
  err : ∀ e, out = .err e →
    (ReaderFails rlog e ∧ accepted wlog = delivered rlog) ∨
    (WriterFails wlog e ∧ accepted wlog ≠ delivered rlog)
  panic : out = .panic →
    (∃ call ∈ rlog, ¬ call.Honest) ∨ (∃ call ∈ wlog, ¬ call.Honest) ∨
    (2 ^ 64 ≤ (delivered rlog).length ∧ accepted wlog = delivered rlog)

/-- **Bytes are left over only where the writer has failed.** -/
theorem CopySpec.proper {rlog : List (ReadCall E)} {wlog : List (WriteCall E)}
    {out : Outcome E UInt64} (h : CopySpec rlog wlog out) (hr : ∀ call ∈ rlog, call.Honest)
    (hw : ∀ call ∈ wlog, call.Honest) (hne : accepted wlog ≠ delivered rlog) :
    ∃ e, out = .err e ∧ WriterFails wlog e := by
  cases hout : out with
  | ok n => exact absurd (h.ok n hout).2.1 hne
  | err e =>
    rcases h.err e hout with ⟨-, heq⟩ | ⟨hfails, -⟩
    · exact absurd heq hne
    · exact ⟨e, rfl, hfails⟩
  | panic =>
    rcases h.panic hout with ⟨call, hmem, hdis⟩ | ⟨call, hmem, hdis⟩ | ⟨-, heq⟩
    · exact absurd (hr call hmem) hdis
    · exact absurd (hw call hmem) hdis
    · exact absurd heq hne

/-! ### The exits -/

/-- **The invariant of the loop**: the writer has accepted what the reader has delivered. -/
structure Copying (rlog : List (ReadCall E)) (wlog : List (WriteCall E)) (buffer : List UInt8)
    (written : UInt64) : Prop where
  bytes : accepted wlog = delivered rlog
  size : buffer.length = defaultStackBufferSize
  written : (delivered rlog).length < 2 ^ 64 → written.toNat = (delivered rlog).length

namespace Copying

variable {rlog : List (ReadCall E)} {wlog : List (WriteCall E)} {buffer : List UInt8}
  {written : UInt64}

/-- An exit at which nothing is left over. -/
theorem exit {out : Outcome E UInt64} {wlog : List (WriteCall E)}
    (hbytes : accepted wlog = delivered rlog)
    (hok : ∀ n, out = .ok n → (∃ last, rlog.getLast? = some last ∧ last.answer = .ok 0) ∧
      ((delivered rlog).length < 2 ^ 64 → n.toNat = (delivered rlog).length))
    (herr : ∀ e, out = .err e → ReaderFails rlog e)
    (hpanic : out = .panic → (∃ call ∈ rlog, ¬ call.Honest) ∨
      2 ^ 64 ≤ (delivered rlog).length) : CopySpec rlog wlog out := by
  refine ⟨⟨[], by rw [List.append_nil, hbytes]⟩, by rw [hbytes]; omega, ?_, ?_, ?_⟩
  · intro n h
    obtain ⟨hlast, hn⟩ := hok n h
    exact ⟨hlast, hbytes, hn⟩
  · intro e h
    exact Or.inl ⟨herr e h, hbytes⟩
  · intro h
    rcases hpanic h with hdis | hsize
    · exact Or.inl hdis
    · exact Or.inr (Or.inr ⟨hsize, hbytes⟩)

/-- The reader has ended the loop with a call that delivered nothing. -/
theorem reader_exit {out : Outcome E UInt64} {last : ReadCall E}
    (h : Copying rlog wlog buffer written) (hdel : last.delivered = [])
    (hok : ∀ n, out = .ok n → last.answer = .ok 0 ∧ n = written)
    (herr : ∀ e, out = .err e → last.answer = .err e ∧ Error.isInterrupted e = false)
    (hpanic : out = .panic → ¬ last.Honest) : CopySpec (rlog ++ [last]) wlog out := by
  have hd : delivered (rlog ++ [last]) = delivered rlog := by
    rw [delivered_concat, hdel, List.append_nil]
  have hlast : (rlog ++ [last]).getLast? = some last := List.getLast?_concat
  refine exit (by rw [hd]; exact h.bytes) ?_ ?_ ?_
  · intro n ho
    obtain ⟨ha, rfl⟩ := hok n ho
    rw [hd]
    exact ⟨⟨last, hlast, ha⟩, h.written⟩
  · intro e ho
    exact ⟨last, hlast, herr e ho⟩
  · intro ho
    exact Or.inl ⟨last, List.mem_append_right _ (List.mem_singleton_self _), hpanic ho⟩

/-- `write_all` has ended the loop: a part of the chunk is left over. -/
theorem writer_exit {out : Outcome E UInt64} {chunk : List UInt8} {call : ReadCall E}
    {log : List (WriteCall E)} {out' : Outcome E Unit} (h : Copying rlog wlog buffer written)
    (hdel : call.delivered = chunk) (hsize : chunk.length ≤ defaultStackBufferSize)
    (hw : WriteAllSpec chunk log out') (hnot : out' ≠ .ok ()) (hok : ∀ n, out ≠ .ok n)
    (herr : ∀ e, out = .err e → out' = .err e) (hpanic : out = .panic → out' = .panic) :
    CopySpec (rlog ++ [call]) (wlog ++ log) out := by
  have hd : delivered (rlog ++ [call]) = delivered rlog ++ chunk := by
    rw [delivered_concat, hdel]
  have ha : accepted (wlog ++ log) = delivered rlog ++ accepted log := by
    rw [accepted, List.flatMap_append, ← accepted, ← accepted, h.bytes]
  have hne : accepted log ≠ chunk := fun he => hnot (hw.ok_iff.mpr he)
  refine ⟨?_, ?_, fun n ho => absurd ho (hok n), fun e ho => Or.inr ⟨?_, ?_⟩, fun ho => ?_⟩
  · rw [ha, hd]
    exact (List.prefix_append_right_inj _).mpr hw.accepted_prefix
  · rw [ha, hd, List.length_append, List.length_append]
    omega
  · obtain ⟨last, hlast, hfails⟩ := (hw.err_iff e).mp (herr e ho)
    refine ⟨last, ?_, hw.offered_ne last (List.mem_of_getLast? hlast), hfails⟩
    rw [List.getLast?_append, hlast, Option.some_or]
  · rw [ha, hd]
    exact fun he => hne (List.append_cancel_left he)
  · obtain ⟨call', hmem, hdis⟩ := hw.panic_iff.mp (hpanic ho)
    exact Or.inr (Or.inl ⟨call', List.mem_append_right _ hmem, hdis⟩)

omit [ErrorImpl E] in
/-- An interrupted read changes nothing. -/
theorem interrupted {call : ReadCall E} {buffer' : List UInt8}
    (h : Copying rlog wlog buffer written) (hdel : call.delivered = [])
    (hsize : buffer'.length = buffer.length) :
    Copying (rlog ++ [call]) wlog buffer' written := by
  have hd : delivered (rlog ++ [call]) = delivered rlog := by
    rw [delivered_concat, hdel, List.append_nil]
  exact ⟨by rw [hd]; exact h.bytes, by rw [hsize, h.size], by rw [hd]; exact h.written⟩

/-- A chunk has been handed over as a whole. -/
theorem chunk {chunk : List UInt8} {call : ReadCall E} {log : List (WriteCall E)}
    (h : Copying rlog wlog buffer written) (hdel : call.delivered = chunk)
    (hw : WriteAllSpec chunk log (.ok ())) :
    accepted (wlog ++ log) = delivered (rlog ++ [call]) := by
  rw [accepted, List.flatMap_append, ← accepted, ← accepted, h.bytes, hw.ok_iff.mp rfl,
    delivered_concat, hdel]

omit [ErrorImpl E] in
/-- The count is the length of what was delivered, unless that does not fit. -/
theorem count [Target] (h : Copying rlog wlog buffer written) (call : ReadCall E) {len : ℕ}
    (hdel : call.delivered.length = len) (hlen : len ≤ defaultStackBufferSize)
    (hlt : (delivered (rlog ++ [call])).length < 2 ^ 64) :
    U64.add written (U64.ofUsize len) = some (written + U64.ofUsize len) ∧
      (written + U64.ofUsize len).toNat = (delivered (rlog ++ [call])).length := by
  have hd : (delivered (rlog ++ [call])).length = (delivered rlog).length + len := by
    rw [delivered_concat, List.length_append, hdel]
  have hsmall : len < 2 ^ 64 := lt_of_le_of_lt hlen (by decide)
  have hw := h.written (by omega)
  have hsum : written.toNat + (U64.ofUsize len).toNat < 2 ^ 64 := by
    rw [U64.toNat_ofUsize hsmall, hw]
    omega
  refine ⟨U64.add_of_lt hsum, ?_⟩
  rw [U64.toNat_add_of_lt hsum, U64.toNat_ofUsize hsmall, hw, hd]

end Copying

/-! ### The loop -/

variable [Target] [Read E R] [Write E W]

/-- What a turn of the loop comes to. -/
def CopyTurn :
    Loop.Step (Logged (ReadCall E) R × Logged (WriteCall E) W × List UInt8 × UInt64)
      (Logged (ReadCall E) R × Logged (WriteCall E) W × Outcome E UInt64) → Prop
  | .next (r, w, buffer, written) => Copying r.log w.log buffer written
  | .done (r, w, out) => CopySpec r.log w.log out

/-- The part of a turn after the reader has delivered `len` bytes. -/
theorem copyTurn_write {fuel len : ℕ} {r r' : Logged (ReadCall E) R} {w : Logged (WriteCall E) W}
    {buffer buffer' : List UInt8} {written : UInt64}
    {x : Loop.Step (Logged (ReadCall E) R × Logged (WriteCall E) W × List UInt8 × UInt64)
      (Logged (ReadCall E) R × Logged (WriteCall E) W × Outcome E UInt64)}
    (h : Copying r.log w.log buffer written)
    (hr : Read.read r buffer = (r', buffer', (.ok (len + 1) : Outcome E ℕ)))
    (hlen : len + 1 ≤ buffer'.length)
    (hx : stackCopyBody (E := E) fuel (r, w, buffer, written) = some x) : CopyTurn x := by
  have hsize := read_length_of_eq hr
  have hbuf := h.size
  have hdel : (⟨buffer, buffer', .ok (len + 1)⟩ : ReadCall E).delivered = buffer'.take (len + 1) :=
    delivered_ok (by omega)
  have hchunk : (buffer'.take (len + 1)).length = len + 1 := by
    rw [List.length_take]
    omega
  simp only [stackCopyBody, hr, if_pos hlen] at hx
  rcases hw : writeAll (E := E) fuel w (buffer'.take (len + 1)) with _ | ⟨w', o⟩
  · simp [hw] at hx
  · obtain ⟨log, hlog, hspec⟩ := writeAll_spec_behind hw
    rw [hw] at hx
    rcases o with _ | e | _
    · dsimp only at hx
      have hbytes := h.chunk hdel hspec
      have hcount := h.count ⟨buffer, buffer', .ok (len + 1)⟩ (by rw [hdel, hchunk]) (by omega)
      cases hadd : U64.add written (U64.ofUsize (len + 1)) with
      | none =>
        simp only [hadd, Option.some.injEq] at hx
        subst hx
        simp only [CopyTurn, log_of_read hr, hlog]
        refine Copying.exit hbytes (by simp) (by simp) fun _ => Or.inr ?_
        by_contra hlt
        rw [(hcount (not_le.mp hlt)).1] at hadd
        cases hadd
      | some n =>
        simp only [hadd, Option.some.injEq] at hx
        subst hx
        simp only [CopyTurn, log_of_read hr, hlog]
        refine ⟨hbytes, by rw [hsize, hbuf], ?_⟩
        intro hlt
        obtain ⟨hsome, hn⟩ := hcount hlt
        rw [hadd, Option.some.injEq] at hsome
        rw [hsome, hn]
    · simp only [Option.some.injEq] at hx
      subst hx
      simp only [CopyTurn, log_of_read hr, hlog]
      exact h.writer_exit hdel (by omega) hspec (by simp) (by simp)
        (fun _ he => by cases he; rfl) (by simp)
    · simp only [Option.some.injEq] at hx
      subst hx
      simp only [CopyTurn, log_of_read hr, hlog]
      exact h.writer_exit hdel (by omega) hspec (by simp) (by simp) (by simp) fun _ => rfl

/-- **A turn keeps the invariant, and leaves the loop as it should.** -/
theorem stackCopyBody_spec {fuel : ℕ} {r : Logged (ReadCall E) R} {w : Logged (WriteCall E) W}
    {buffer : List UInt8} {written : UInt64}
    {x : Loop.Step (Logged (ReadCall E) R × Logged (WriteCall E) W × List UInt8 × UInt64)
      (Logged (ReadCall E) R × Logged (WriteCall E) W × Outcome E UInt64)}
    (h : Copying r.log w.log buffer written)
    (hx : stackCopyBody (E := E) fuel (r, w, buffer, written) = some x) : CopyTurn x := by
  rcases hr : Read.read (E := E) r buffer with ⟨r', buffer', (_ | len) | e | _⟩
  · simp only [stackCopyBody, hr, Option.some.injEq] at hx
    subst hx
    simp only [CopyTurn, log_of_read hr]
    exact h.reader_exit (delivered_ok (Nat.zero_le _)) (fun n hn => by cases hn; exact ⟨rfl, rfl⟩)
      (by simp) (by simp)
  · by_cases hlen : len + 1 ≤ buffer'.length
    · exact copyTurn_write h hr hlen hx
    · have hsize := read_length_of_eq hr
      have hdis : ¬ len + 1 ≤ buffer.length := by omega
      simp only [stackCopyBody, hr, if_neg hlen, Option.some.injEq] at hx
      subst hx
      simp only [CopyTurn, log_of_read hr]
      exact h.reader_exit (if_neg hdis) (by simp) (by simp) fun _ => hdis
  · by_cases hi : Error.isInterrupted e = true
    · simp only [stackCopyBody, hr, if_pos hi, Option.some.injEq] at hx
      subst hx
      simp only [CopyTurn, log_of_read hr]
      exact h.interrupted rfl (read_length_of_eq hr)
    · simp only [stackCopyBody, hr, if_neg hi, Option.some.injEq] at hx
      subst hx
      simp only [CopyTurn, log_of_read hr]
      refine h.reader_exit rfl (by simp) ?_ (by simp)
      intro e' he
      cases he
      exact ⟨rfl, by simpa using hi⟩
  · simp only [stackCopyBody, hr, Option.some.injEq] at hx
    subst hx
    simp only [CopyTurn, log_of_read hr]
    exact h.reader_exit rfl (by simp) (by simp) fun _ => id

/-- **`copy` loses, repeats and reorders nothing**, on every exit.  Where it leaves bytes
over and both parties answer as the traits allow, the writer has failed. -/
theorem copy_loses_nothing {n : ℕ} {read read' : R} {write write' : W} {out : Outcome E UInt64}
    (h : copy n read write = some (read', write', out)) :
    ∃ rlog wlog,
      copy n (⟨read, []⟩ : Logged (ReadCall E) R) (⟨write, []⟩ : Logged (WriteCall E) W)
        = some (⟨read', rlog⟩, ⟨write', wlog⟩, out) ∧
      CopySpec rlog wlog out ∧
      ((∀ call ∈ rlog, call.Honest) → (∀ call ∈ wlog, call.Honest) →
        accepted wlog ≠ delivered rlog → ∃ e, out = .err e ∧ WriterFails wlog e) := by
  obtain ⟨rlog, wlog, hrun⟩ := stackCopy_logged h
  have hstart : CopyTurn (.next ((⟨read, []⟩ : Logged (ReadCall E) R),
      (⟨write, []⟩ : Logged (WriteCall E) W), List.replicate defaultStackBufferSize 0, 0)) :=
    ⟨rfl, List.length_replicate, fun _ => rfl⟩
  have hspec : CopySpec rlog wlog out :=
    Loop.run_spec CopyTurn (fun _ _ _ hs hb => stackCopyBody_spec hs hb) hstart hrun
  exact ⟨rlog, wlog, hrun, hspec, hspec.proper⟩

end

open Machine64 in
/-- The reader and the writer are both interrupted, and the writer takes the first piece in two
parts. -/
theorem copy_loses_nothing_pieces :
    ∃ (rlog : List (ReadCall (Features.Error StdIo.plain .std)))
      (wlog : List (WriteCall (Features.Error StdIo.plain .std))),
      copy 5 (⟨Script.pieces, []⟩ : Logged (ReadCall (Features.Error StdIo.plain .std)) (Script _))
        (⟨Answers.pieces, []⟩ : Logged (WriteCall (Features.Error StdIo.plain .std)) (Answers _))
        = some (⟨⟨[]⟩, rlog⟩, ⟨⟨[]⟩, wlog⟩,
          (.ok 3 : Outcome (Features.Error StdIo.plain .std) UInt64)) ∧
      CopySpec rlog wlog (.ok 3) := by
  have h : copy 5 Script.pieces Answers.pieces = some (⟨[]⟩, ⟨[]⟩,
      (.ok 3 : Outcome (Features.Error StdIo.plain .std) UInt64)) := by decide +kernel
  obtain ⟨rlog, wlog, hrun, hspec, -⟩ := copy_loses_nothing h
  exact ⟨rlog, wlog, hrun, hspec⟩

end NotIo
