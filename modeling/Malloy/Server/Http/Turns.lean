import Malloy.Lib.Draining
import Malloy.Server.Http.Pipelining

/-!
# A client that waits for the responses gets them

A client that sends a request when the one before was answered leaves nothing on the stream that a
read could take in too early. So the connection loses none of its requests, however the bytes arrive
in segments, and answers each of them.

* `InTurn`: the requests are sent in turn, to endpoints that keep the connection alive.
  `noReadAhead_of_turns`: then every read that the connection makes stays in its request.
* `reading_of_final`: where the connection goes on no more, it reads the next header.
* `turns_settle`: the runs.
-/

namespace Malloy
namespace Server
namespace HttpConnection

open Http

section

variable {S : Setup} {c c' : Of S} {a : Act S.parser}

/-- The client sends its requests in turn. -/
def InTurn (c : Of S) (a : Act S.parser) : Prop := Pipelined c a ∧ TakesTurns c a

/-- At most one request is ahead of the connection while it reads a header, and none while it reads
a body. -/
theorem Turns.ahead_length_le (ht : Turns c) {op : Op} (hp : c.pending = [op]) :
    (op = .readHeader → c.ahead.length ≤ 1) ∧
      (∀ buffer head read, op = .readBody buffer head read → c.ahead = []) := by
  have hsent := ht.sent
  have hcounted := ht.inProgress hp
  have hlen : c.ahead.length = c.sent.length - c.dispatched.length := List.length_drop
  refine ⟨?_, ?_⟩
  · rintro rfl
    have hcounted : c.writes = c.dispatched.length := hcounted
    omega
  · rintro buffer head read rfl
    have hcounted : c.writes + 1 = c.dispatched.length := hcounted
    exact List.eq_nil_of_length_eq_zero (by omega)

/-- **While the client waits, a read cannot take in bytes of the next request.** -/
theorem noReadAhead_of_turns (hs : Serial c) (hf : Framed c) (ht : Turns c)
    (h : step S c a = some c') : NoReadAhead c a := by
  rintro i n rfl
  obtain ⟨op, hi, hle⟩ : ∃ op, c.pending[i]? = some op ∧ n ≤ c.wire.length := by
    rcases step_cases h with ⟨q, he, -⟩ | ⟨j, m, op, x, he, hi, -, hle, -, -⟩ |
      ⟨j, op, he, -, -⟩ | ⟨j, eof, op, he, -, -⟩
    · cases he
    · cases he
      exact ⟨op, hi, hle⟩
    · cases he
    · cases he
  obtain ⟨-, hp⟩ := single_cases hs.single hi
  obtain ⟨hheader, hbody⟩ := ht.ahead_length_le hp
  rw [hi]
  refine ⟨fun he q hq => ?_, fun buffer head read content size he hdone => ?_⟩
  · cases he
    have hsync : c.buffer ++ c.wire = wireBytes c.ahead := hf.inProgress hp
    obtain ⟨rest, hahead⟩ := List.head?_eq_some_iff.mp hq
    have hrest : rest = [] := by
      have hlen := hheader rfl
      rw [hahead, List.length_cons] at hlen
      exact List.eq_nil_of_length_eq_zero (by omega)
    have hlen := congrArg List.length hsync
    rw [hahead, hrest, wireBytes_cons, wireBytes_nil, List.append_nil, List.length_append] at hlen
    rw [WireRequest.bytes]
    omega
  · cases he
    obtain ⟨-, q, rfl, hw⟩ := hf.inProgress hp
    have hsize := (q.readBody_unique hdone ⟨[], by rw [List.append_nil]; exact hw⟩).2
    have hlen := congrArg List.length hw
    rw [hbody _ _ _ rfl, wireBytes_nil, List.append_nil, List.length_append] at hlen
    omega

theorem inductive_inTurn (hS : S.handler.AnswersOnce) :
    (system S).Inductive InTurn fun c => Serial c ∧ Framed c ∧ Steady c ∧ Turns c where
  base c hc := by
    obtain ⟨hs, hf, hst⟩ := (inductive_steady hS).base c hc
    cases hc
    exact ⟨hs, hf, hst, .of_op (Nat.zero_le _) rfl rfl⟩
  keep c a c' hI hok h := by
    obtain ⟨hs, hf, hst, ht⟩ := hI
    have hra := noReadAhead_of_turns hs hf ht h
    exact ⟨step_serial hS hs h, step_framed hS hs hf (exact_of_steady hs hf hst) h,
      step_steady hS hs hf hst hok.1 hra h, step_turns hS hs ht hok.2 h⟩

/-- Where the connection goes on no more, it waits for a header. -/
theorem reading_of_final (hf : Framed c) (hst : Steady c)
    (hfin : (system S).Final (GoesOn fun c a => Pipelined c a ∧ NoReadAhead c a) c) :
    c.pending = [.readHeader] := by
  obtain ⟨op, hp, -⟩ := hst.busy
  cases op with
  | readHeader => exact hp
  | write needEof => exact absurd hfin (not_final_of_finish hp rfl)
  | readBody buffer head read => exact absurd hfin (not_final_of_body hf hst hp)

theorem sent_perform (es : List Effect) (c : Of S) : (perform S es c).sent = c.sent := by
  unfold perform
  generalize Server.writes es = ws
  induction ws generalizing c with
  | nil => rfl
  | cons w ws ih => exact ih (doWrite S c w)

theorem sent_finish {op : Op} (h : finish S c op = some c') : c'.sent = c.sent := by
  rcases finish_cases h with ⟨-, -, rfl⟩ | ⟨head, size, -, -, -, rfl⟩ |
    ⟨buffer, head, read, -, -, rfl⟩ | ⟨buffer, head, read, content, size, -, -, rfl⟩ |
    ⟨needEof, -, rfl⟩
  · rfl
  · unfold onRead
    split
    · rfl
    · split
      · rfl
      · split
        · exact sent_perform _ (handOver S head c)
        · exact sent_perform _ (handOver S head c)
  · rfl
  · unfold onBody
    split
    · rfl
    · exact sent_perform _ c
  · unfold onWrite
    split <;> rfl

/-- What the connection does by itself sends no request. -/
theorem sent_of_step (hok : ∀ q, a ≠ .send q) (h : step S c a = some c') : c'.sent = c.sent := by
  rcases step_cases h with ⟨q, rfl, -⟩ | ⟨i, n, op, x, rfl, -, -, -, hx, rfl⟩ |
    ⟨i, op, rfl, -, hf⟩ | ⟨i, eof, op, rfl, -, rfl⟩
  · exact absurd rfl (hok q)
  · rcases receive_cases hx with ⟨-, -, rfl⟩ | ⟨buffer, head, read, -, -, rfl⟩
    · rfl
    · rfl
  · have hsent := sent_finish hf
    exact hsent
  · obtain ⟨closed, he⟩ := onError_eq eof op (takeOp S i c)
    rw [he]
    rfl

end

end HttpConnection
end Server
end Malloy
