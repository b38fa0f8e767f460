import NotIo.Trace

/-!
# `write_all`

`Writing buf log rest` is the invariant of the loop: what the writer has accepted,
followed by what is left, is the buffer.  So every call is offered the buffer from where the
calls before it have stopped accepting (`HandedOver`).

* `writeAll_spec`: the last call decides how `write_all` ends.
* `writeAll_hands_over`: the buffer is handed over once and in order.
-/

namespace NotIo

variable {E W : Type} [ErrorImpl E]

/-! ### The calls -/

/-- The answer of the call lets the loop go on. -/
def WriteCall.Continues (call : WriteCall E) : Prop :=
  match call.answer with
  | .ok n => 0 < n ∧ n ≤ call.offered.length
  | .err e => Error.isInterrupted e = true
  | .panic => False

/-- The answer of the call makes `write_all` fail with `e`. -/
def WriteCall.Fails (call : WriteCall E) (e : E) : Prop :=
  (call.answer = .ok 0 ∧ e = Error.ofErrorKind .writeZero) ∨
    (call.answer = .err e ∧ Error.isInterrupted e = false)

theorem WriteCall.not_continues_of_fails {call : WriteCall E} {e : E} (h : call.Fails e) :
    ¬ call.Continues := by
  rcases h with ⟨ha, -⟩ | ⟨ha, hi⟩
  · simp [Continues, ha]
  · simp [Continues, ha, hi]

/-- A call that ends the loop has accepted nothing. -/
theorem WriteCall.accepted_of_not_continues {call : WriteCall E} (h : ¬ call.Continues) :
    call.accepted = [] := by
  unfold accepted
  split
  · rename_i n ha
    split
    · rename_i hn
      simp only [Continues, ha, not_and] at h
      obtain rfl : n = 0 := by
        by_contra hpos
        exact h (by omega) hn
      rfl
    · rfl
  · rfl

/-- How the loop ends when the answer of a call does not let it go on. -/
def WriteCall.exit (call : WriteCall E) : Outcome E Unit :=
  match call.answer with
  | .ok 0 => .err (Error.ofErrorKind .writeZero)
  | .ok _ => .panic
  | .err e => .err e
  | .panic => .panic

theorem WriteCall.exit_eq_err_iff {call : WriteCall E} (h : ¬ call.Continues) (e : E) :
    call.exit = .err e ↔ call.Fails e := by
  unfold exit Fails
  rcases ha : call.answer with (_ | n) | e' | _
  · simp only [Outcome.err.injEq, true_and, reduceCtorEq, false_and, or_false]
    exact eq_comm
  · simp
  · have hi : Error.isInterrupted e' = false := by simpa [Continues, ha] using h
    simp only [Outcome.err.injEq, reduceCtorEq, false_and, false_or]
    exact ⟨fun he => ⟨he, he ▸ hi⟩, fun he => he.1⟩
  · simp

theorem WriteCall.exit_eq_panic_iff {call : WriteCall E} (h : ¬ call.Continues) :
    call.exit = .panic ↔ ¬ call.Honest := by
  unfold exit Honest
  rcases ha : call.answer with (_ | n) | e' | _
  · simp
  · simp only [Continues, ha, not_and] at h
    simpa using h (Nat.succ_pos n)
  · simp
  · simp

theorem WriteCall.exit_ne_ok (call : WriteCall E) : call.exit ≠ .ok () := by
  unfold exit
  rcases call.answer with (_ | n) | e | _ <;> simp

theorem WriteCall.honest_of_continues {call : WriteCall E} (h : call.Continues) : call.Honest := by
  rcases ha : call.answer with n | e | _
  · simp only [Continues, ha] at h
    simpa only [Honest, ha] using h.2
  · simp only [Honest, ha]
  · simp only [Continues, ha] at h

/-! ### What the calls decide -/

/-- What `write_all` of `buf` does: `log` has the calls that it made to the writer, `out`
is how it ended. -/
structure WriteAllSpec (buf : List UInt8) (log : List (WriteCall E)) (out : Outcome E Unit) :
    Prop where
  accepted_prefix : accepted log <+: buf
  offered_ne : ∀ call ∈ log, call.offered ≠ []
  ok_iff : out = .ok () ↔ accepted log = buf
  err_iff : ∀ e, out = .err e ↔ ∃ last, log.getLast? = some last ∧ last.Fails e
  panic_iff : out = .panic ↔ ∃ call ∈ log, ¬ call.Honest

/-- **The invariant of the loop**: what has been accepted, followed by what is left, is
the buffer, and no call has ended the loop. -/
structure Writing (buf : List UInt8) (log : List (WriteCall E)) (rest : List UInt8) : Prop where
  bytes : accepted log ++ rest = buf
  continues : ∀ call ∈ log, call.Continues
  offered_ne : ∀ call ∈ log, call.offered ≠ []

namespace Writing

variable {buf rest : List UInt8} {log : List (WriteCall E)}

theorem start (buf : List UInt8) : Writing (E := E) buf [] buf := ⟨rfl, by simp, by simp⟩

/-- A call that goes on. -/
theorem step {o : Outcome E ℕ} {rest' : List UInt8} (h : Writing buf log rest) (hne : rest ≠ [])
    (ho : (⟨rest, o⟩ : WriteCall E).Continues)
    (hrest : (⟨rest, o⟩ : WriteCall E).accepted ++ rest' = rest) :
    Writing buf (log ++ [⟨rest, o⟩]) rest' := by
  refine ⟨?_, ?_, ?_⟩
  · rw [accepted_concat, List.append_assoc, hrest, h.bytes]
  · intro call hmem
    rw [List.mem_append, List.mem_singleton] at hmem
    rcases hmem with hmem | rfl
    · exact h.continues call hmem
    · exact ho
  · intro call hmem
    rw [List.mem_append, List.mem_singleton] at hmem
    rcases hmem with hmem | rfl
    · exact h.offered_ne call hmem
    · exact hne

/-- Nothing is left. -/
theorem done (h : Writing buf log []) : WriteAllSpec buf log (.ok ()) := by
  have hall : accepted log = buf := by rw [← h.bytes, List.append_nil]
  refine ⟨⟨[], h.bytes⟩, h.offered_ne, ⟨fun _ => hall, fun _ => rfl⟩, fun e => ⟨nofun, ?_⟩,
    ⟨nofun, ?_⟩⟩
  · intro h'
    obtain ⟨last, hlast, hfails⟩ := h'
    exact absurd (h.continues last (List.mem_of_getLast? hlast))
      (WriteCall.not_continues_of_fails hfails)
  · intro h'
    obtain ⟨call, hmem, hdis⟩ := h'
    exact absurd (WriteCall.honest_of_continues (h.continues call hmem)) hdis

/-- A call that ends the loop leaves the rest of the buffer unaccepted. -/
theorem exit {o : Outcome E ℕ} (h : Writing buf log rest) (hne : rest ≠ [])
    (ho : ¬ (⟨rest, o⟩ : WriteCall E).Continues) :
    WriteAllSpec buf (log ++ [⟨rest, o⟩]) (⟨rest, o⟩ : WriteCall E).exit := by
  have hacc : accepted (log ++ [⟨rest, o⟩]) = accepted log := by
    rw [accepted_concat, WriteCall.accepted_of_not_continues ho, List.append_nil]
  refine ⟨⟨rest, by rw [hacc, h.bytes]⟩, ?_, ⟨?_, ?_⟩, ?_, ?_⟩
  · intro call hmem
    rw [List.mem_append, List.mem_singleton] at hmem
    rcases hmem with hmem | rfl
    · exact h.offered_ne call hmem
    · exact hne
  · intro hk
    exact absurd hk (WriteCall.exit_ne_ok _)
  · intro hk
    rw [hacc] at hk
    have hb := h.bytes
    rw [hk] at hb
    exact absurd (List.append_right_eq_self.mp hb) hne
  · intro e
    rw [WriteCall.exit_eq_err_iff ho, List.getLast?_concat]
    simp
  · rw [WriteCall.exit_eq_panic_iff ho]
    constructor
    · intro hdis
      exact ⟨_, List.mem_append_right _ (List.mem_singleton_self _), hdis⟩
    · intro h'
      obtain ⟨call, hmem, hdis⟩ := h'
      rw [List.mem_append, List.mem_singleton] at hmem
      rcases hmem with hmem | rfl
      · exact absurd (WriteCall.honest_of_continues (h.continues call hmem)) hdis
      · exact hdis

end Writing

/-! ### The loop -/

variable [Write E W]

/-- What a turn of the loop comes to. -/
def WriteTurn (buf : List UInt8) :
    Loop.Step (Logged (WriteCall E) W × List UInt8) (Logged (WriteCall E) W × Outcome E Unit) → Prop
  | .next (w, rest) => Writing buf w.log rest
  | .done (w, out) => WriteAllSpec buf w.log out

/-- **A turn keeps the invariant, and leaves the loop as it should.** -/
theorem writeAllBody_spec {buf rest : List UInt8} {w : Logged (WriteCall E) W}
    (h : Writing buf w.log rest) : WriteTurn buf (writeAllBody (w, rest)) := by
  cases rest with
  | nil => exact h.done
  | cons b rest =>
    rcases hw : Write.write (E := E) w (b :: rest) with ⟨w', o⟩
    have hlog := log_of_write hw
    have hexit : ¬ (⟨b :: rest, o⟩ : WriteCall E).Continues →
        WriteAllSpec buf w'.log (⟨b :: rest, o⟩ : WriteCall E).exit := by
      intro ho
      rw [hlog]
      exact h.exit nofun ho
    simp only [writeAllBody, List.isEmpty_cons, Bool.false_eq_true, if_false, hw]
    rcases o with (_ | n) | e | _
    · exact hexit (by simp [WriteCall.Continues])
    · by_cases hn : n + 1 ≤ (b :: rest).length
      · simp only [if_pos hn, WriteTurn]
        rw [hlog]
        refine h.step nofun ⟨Nat.succ_pos n, hn⟩ ?_
        rw [accepted_ok hn, List.take_append_drop]
      · simp only [if_neg hn]
        exact hexit (by simp only [WriteCall.Continues]; omega)
    · by_cases hi : Error.isInterrupted e = true
      · simp only [if_pos hi, WriteTurn]
        rw [hlog]
        exact h.step nofun hi rfl
      · simp only [if_neg hi]
        exact hexit hi
    · exact hexit (by simp [WriteCall.Continues])

/-- **The last call decides how `write_all` ends**, and the writer has accepted a prefix
of the buffer. -/
theorem writeAll_spec {n : ℕ} {w : W} {w' : Logged (WriteCall E) W} {buf : List UInt8}
    {out : Outcome E Unit}
    (h : writeAll n (⟨w, []⟩ : Logged (WriteCall E) W) buf = some (w', out)) :
    WriteAllSpec buf w'.log out := by
  have hstart : WriteTurn buf (.next ((⟨w, []⟩ : Logged (WriteCall E) W), buf)) := Writing.start buf
  exact Loop.loop_spec (WriteTurn buf) (fun _ hs => writeAllBody_spec hs) hstart h

/-- The same with calls in the record from before. -/
theorem writeAll_spec_behind {n : ℕ} {w w' : Logged (WriteCall E) W} {buf : List UInt8}
    {out : Outcome E Unit} (h : writeAll n w buf = some (w', out)) :
    ∃ log, w'.log = w.log ++ log ∧ WriteAllSpec buf log out := by
  obtain ⟨w, log⟩ := w
  have hm := writeAll_map (writeHom_behind log) n (⟨w, []⟩ : Logged (WriteCall E) W) buf
  rw [show Logged.behind log (⟨w, []⟩ : Logged (WriteCall E) W) = ⟨w, log⟩ by
    simp [Logged.behind], h, eq_comm, Option.map_eq_some_iff] at hm
  obtain ⟨⟨w'', out'⟩, hrun, he⟩ := hm
  simp only [Prod.map, id_eq, Prod.mk.injEq] at he
  obtain ⟨rfl, rfl⟩ := he
  exact ⟨w''.log, rfl, writeAll_spec hrun⟩

/-! ### Once and in order -/

omit [ErrorImpl E] [Write E W] in
/-- The call after `pre` has accepted the byte at position `i` of the buffer. -/
def AcceptedAt (pre : List (WriteCall E)) (call : WriteCall E) (i : ℕ) : Prop :=
  (accepted pre).length ≤ i ∧ i < (accepted pre).length + call.accepted.length

omit [ErrorImpl E] [Write E W] in
/-- The writer has got a prefix of the buffer, every call beginning where the ones before it
have come to. -/
structure HandedOver (buf : List UInt8) (log : List (WriteCall E)) : Prop where
  accepted_prefix : accepted log <+: buf
  in_order : ∀ pre call post, log = pre ++ call :: post →
    call.offered = buf.drop (accepted pre).length
  later : ∀ pre call post, log = pre ++ call :: post → ∀ i, AcceptedAt pre call i →
    i < (accepted log).length
  offered_ne : ∀ call ∈ log, call.offered ≠ []
  untouched : buf = [] → log = []

section

omit [ErrorImpl E]

theorem WriteCall.accepted_prefix (call : WriteCall E) : call.accepted <+: call.offered := by
  unfold accepted
  split
  · split
    · exact List.take_prefix _ _
    · exact List.nil_prefix
  · exact List.nil_prefix

/-- What holds of every call and the calls before it. -/
theorem forall_split_concat {α : Type} {P : List α → α → Prop} {l : List α} {a : α}
    (h : ∀ pre x post, l = pre ++ x :: post → P pre x) (ha : P l a) :
    ∀ pre x post, l ++ [a] = pre ++ x :: post → P pre x := by
  intro pre x post he
  rcases List.eq_nil_or_concat post with rfl | ⟨post', y, rfl⟩
  · obtain ⟨rfl, hx⟩ := List.append_inj' he rfl
    rw [List.cons.injEq] at hx
    rw [← hx.1]
    exact ha
  · rw [List.concat_eq_append, ← List.cons_append, ← List.append_assoc] at he
    obtain ⟨hl, -⟩ := List.append_inj' he rfl
    exact h pre x post' hl

namespace HandedOver

variable {buf rest : List UInt8} {log : List (WriteCall E)}

theorem start (buf : List UInt8) : HandedOver (E := E) buf [] :=
  ⟨List.nil_prefix, by simp, by simp, by simp, fun _ => rfl⟩

/-- A call that is offered what is left. -/
theorem step (h : HandedOver buf log) (hbytes : accepted log ++ rest = buf) (hne : rest ≠ [])
    (o : Outcome E ℕ) : HandedOver buf (log ++ [⟨rest, o⟩]) := by
  have hrest : rest = buf.drop (accepted log).length := by rw [← hbytes, List.drop_left]
  refine ⟨?_, forall_split_concat h.in_order hrest, ?_, ?_, ?_⟩
  · rw [accepted_concat, ← hbytes]
    exact (List.prefix_append_right_inj _).mpr (WriteCall.accepted_prefix _)
  · have hlen : (accepted (log ++ [⟨rest, o⟩])).length
        = (accepted log).length + (⟨rest, o⟩ : WriteCall E).accepted.length := by
      rw [accepted_concat, List.length_append]
    refine forall_split_concat ?_ ?_
    · intro pre call post hlog i hi
      have := h.later pre call post hlog i hi
      omega
    · intro i hi
      rw [hlen]
      exact hi.2
  · intro call hmem
    rw [List.mem_append, List.mem_singleton] at hmem
    rcases hmem with hmem | rfl
    · exact h.offered_ne call hmem
    · exact hne
  · intro hb
    rw [hb, List.append_eq_nil_iff] at hbytes
    exact absurd hbytes.2 hne

end HandedOver

end

/-- The calls in the record after a turn. -/
def logOfWriteTurn :
    Loop.Step (Logged (WriteCall E) W × List UInt8) (Logged (WriteCall E) W × Outcome E Unit) →
      List (WriteCall E)
  | .next (w, _) => w.log
  | .done (w, _) => w.log

/-- A turn with something left makes one call. -/
theorem writeAllBody_log (w : Logged (WriteCall E) W) {rest : List UInt8} (hne : rest ≠ []) :
    ∃ o, logOfWriteTurn (writeAllBody (E := E) (w, rest)) = w.log ++ [⟨rest, o⟩] := by
  rcases hw : Write.write (E := E) w rest with ⟨w', (_ | n) | e | _⟩ <;>
    refine ⟨_, Eq.trans ?_ (log_of_write hw)⟩ <;>
    simp only [writeAllBody, List.isEmpty_iff, if_neg hne, hw]
  · rfl
  · split <;> rfl
  · split <;> rfl
  · rfl

/-- What a turn of the loop comes to, with the calls in order. -/
def HandTurn (buf : List UInt8) (x : Loop.Step (Logged (WriteCall E) W × List UInt8)
    (Logged (WriteCall E) W × Outcome E Unit)) : Prop :=
  WriteTurn buf x ∧ HandedOver buf (logOfWriteTurn x)

theorem writeAllBody_hands {buf : List UInt8} {s : Logged (WriteCall E) W × List UInt8}
    (h : HandTurn buf (.next s)) : HandTurn buf (writeAllBody s) := by
  obtain ⟨w, rest⟩ := s
  obtain ⟨hwriting, hhanded⟩ := h
  refine ⟨writeAllBody_spec hwriting, ?_⟩
  by_cases hne : rest = []
  · subst hne
    exact hhanded
  · obtain ⟨o, hlog⟩ := writeAllBody_log w hne
    rw [hlog]
    exact hhanded.step hwriting.bytes hne o

/-- **`write_all` hands over the buffer once and in order.**  When it fails, a part of the buffer
is left over that no call has accepted; as long as it has not come to an end, every answer has let
it go on. -/
theorem writeAll_hands_over (fuel : ℕ) (w : W) (buf : List UInt8) :
    (∀ w' out, writeAll (E := E) fuel w buf = some (w', out) →
      ∃ log, writeAll fuel (⟨w, []⟩ : Logged (WriteCall E) W) buf = some (⟨w', log⟩, out) ∧
        HandedOver buf log ∧ WriteAllSpec buf log out ∧
        (∀ e, out = .err e → accepted log ≠ buf)) ∧
    (writeAll (E := E) fuel w buf = none →
      ∃ (w' : Logged (WriteCall E) W) (rest : List UInt8),
        Loop.after (writeAllBody (E := E)) fuel ((⟨w, []⟩ : Logged (WriteCall E) W), buf)
          = some (w', rest) ∧
        w'.log.length = fuel ∧ HandedOver buf w'.log ∧ Writing buf w'.log rest) := by
  have hstart : HandTurn buf (.next ((⟨w, []⟩ : Logged (WriteCall E) W), buf)) :=
    ⟨Writing.start buf, HandedOver.start buf⟩
  constructor
  · intro w' out h
    obtain ⟨log, hl⟩ := writeAll_logged h
    obtain ⟨hspec, hhanded⟩ : HandTurn buf (.done ((⟨w', log⟩ : Logged (WriteCall E) W), out)) :=
      Loop.loop_spec (HandTurn buf) (fun _ hs => writeAllBody_hands hs) hstart hl
    refine ⟨log, hl, hhanded, hspec, ?_⟩
    intro e he hall
    have hok := hspec.ok_iff.mpr hall
    rw [he] at hok
    cases hok
  · intro h
    obtain ⟨⟨w', rest⟩, hafter⟩ := Loop.after_of_map
      (writeAll_map writeHom_logged fuel (⟨w, []⟩ : Logged (WriteCall E) W) buf) h
    obtain ⟨hlen, hwriting, hhanded⟩ : w'.log.length = 0 + fuel ∧ Writing buf w'.log rest ∧
        HandedOver buf w'.log := by
      refine Loop.after_invariant (fun k s => s.1.log.length = k ∧ HandTurn buf (.next s)) ?_
        ⟨rfl, hstart⟩ hafter
      intro k s s' hs hb
      refine ⟨?_, hb ▸ writeAllBody_hands hs.2⟩
      obtain ⟨w₁, rest₁⟩ := s
      have hne : rest₁ ≠ [] := by
        intro he
        subst he
        cases hb
      obtain ⟨o, hlog⟩ := writeAllBody_log w₁ hne
      rw [hb] at hlog
      rw [show s'.1.log = w₁.log ++ [⟨rest₁, o⟩] from hlog, List.length_append, hs.1,
        List.length_singleton]
    exact ⟨w', rest, hafter, by simpa using hlen, hhanded, hwriting⟩

open Machine64 in
/-- Three bytes are handed to a writer that takes one of them, is interrupted and takes the
others. -/
theorem writeAll_hands_over_pieces :
    ∃ log : List (WriteCall (Features.Error StdIo.plain .std)),
      writeAll (E := Features.Error StdIo.plain .std) 4
        (⟨Answers.pieces, []⟩ : Logged (WriteCall (Features.Error StdIo.plain .std)) (Answers _))
        [1, 2, 3] = some (⟨⟨[]⟩, log⟩, .ok ()) ∧
      HandedOver [1, 2, 3] log ∧ WriteAllSpec [1, 2, 3] log (.ok ()) ∧
      (∀ e, (.ok () : Outcome (Features.Error StdIo.plain .std) Unit) = .err e →
        accepted log ≠ [1, 2, 3]) :=
  (writeAll_hands_over 4 Answers.pieces [1, 2, 3]).1 ⟨[]⟩ (.ok ()) (by decide +kernel)

end NotIo
