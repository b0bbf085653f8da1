import Malloy.Core.Http.Generator
import Malloy.Core.Utils

/-!
# Reading a request

The request parser is Beast's. What the connection relies on is in the structure `RequestParser`: a
parser that has seen the end of a header or of a chunked body, or an error, does not change its mind
when more bytes arrive, both end within the bytes that were seen, and without a byte there is
neither. How long a body is the header says (`Content-Length`, without which there is none), or the
body itself as it arrives (`Transfer-Encoding: chunked`).

* `RequestParser.readBody`: what a read of the body makes of its first bytes.
* `WireRequest`: a request as it is sent, well-formed for a parser, with a body of either kind.
* `RequestParser.frame`: a header found at the start of what was sent is the header of the first
  request that was sent. `WireRequest.readBody_eq`: so is the body found behind it.
* `RequestParser.plain`: such a parser, for headers of lines without continuation, and chunks without
  extensions.
-/

namespace Malloy
namespace Server

open Http Lib

/-- What a parser makes of the bytes of a header that it has seen. -/
inductive HeaderResult where
  | needMore
  /-- The header, and the number of its bytes. -/
  | done (head : RequestHeader) (size : Nat)
  | error
  deriving DecidableEq

/-- How a header says where its body ends. -/
inductive BodyFraming where
  | length (n : Nat)
  | chunked
  deriving DecidableEq

/-- What a parser makes of the bytes of a body that it has seen. -/
inductive BodyResult where
  | needMore
  /-- The body, and the number of bytes that it took. -/
  | done (content : Str) (size : Nat)
  | error
  deriving DecidableEq

structure RequestParser where
  parse : Str → HeaderResult
  framing : RequestHeader → BodyFraming
  /-- A chunked body, which may have at most so many bytes. -/
  chunks : Nat → Str → BodyResult
  parse_nil : parse [] = .needMore
  size_pos : ∀ {b head n}, parse b = .done head n → 0 < n
  size_le : ∀ {b head n}, parse b = .done head n → n ≤ b.length
  done_append : ∀ {b head n} c, parse b = .done head n → parse (b ++ c) = .done head n
  error_append : ∀ {b} c, parse b = .error → parse (b ++ c) = .error
  framing_chunked : ∀ {head}, framing head = .chunked →
    hasField head.fields (lit "Transfer-Encoding") = true
  chunks_le : ∀ {limit b content n}, chunks limit b = .done content n → n ≤ b.length
  chunks_limit : ∀ {limit b content n}, chunks limit b = .done content n → content.length ≤ limit
  chunks_mono : ∀ {limit limit' b content n}, limit ≤ limit' →
    chunks limit b = .done content n → chunks limit' b = .done content n
  chunks_append : ∀ {limit b} c, chunks limit b ≠ .needMore → chunks limit (b ++ c) = chunks limit b

namespace RequestParser

variable (P : RequestParser)

/-- What the header says that the length of the body is, if it does. -/
def contentLength (head : RequestHeader) : Nat :=
  match P.framing head with
  | .length n => n
  | .chunked => 0

/-- The body that follows this header, of which these bytes have been seen. -/
def readBody (limit : Nat) (head : RequestHeader) (b : Str) : BodyResult :=
  match P.framing head with
  | .length n => if n ≤ b.length then .done (b.take n) n else .needMore
  | .chunked => P.chunks limit b

variable {P} {limit limit' : Nat} {head : RequestHeader} {b content : Str} {n : Nat}

theorem readBody_append (c : Str) (h : P.readBody limit head b ≠ .needMore) :
    P.readBody limit head (b ++ c) = P.readBody limit head b := by
  unfold readBody at h ⊢
  cases hf : P.framing head with
  | chunked =>
    rw [hf] at h
    exact P.chunks_append c h
  | length n =>
    rw [hf] at h
    have hle : n ≤ b.length := by
      by_contra hlt
      exact h (if_neg hlt)
    have hle' : n ≤ (b ++ c).length := by
      rw [List.length_append]
      omega
    simp only [if_pos hle, if_pos hle', List.take_append_of_le_length hle]

theorem readBody_append_done (c : Str) (h : P.readBody limit head b = .done content n) :
    P.readBody limit head (b ++ c) = .done content n := by
  rw [readBody_append c (by rw [h]; exact BodyResult.noConfusion), h]

theorem readBody_append_error (c : Str) (h : P.readBody limit head b = .error) :
    P.readBody limit head (b ++ c) = .error := by
  rw [readBody_append c (by rw [h]; exact BodyResult.noConfusion), h]

theorem readBody_le (h : P.readBody limit head b = .done content n) : n ≤ b.length := by
  unfold readBody at h
  split at h
  · split at h
    · rename_i hle
      cases h
      exact hle
    · cases h
  · exact P.chunks_le h

theorem readBody_mono (hle : limit ≤ limit') (h : P.readBody limit head b = .done content n) :
    P.readBody limit' head b = .done content n := by
  unfold readBody at h ⊢
  cases hf : P.framing head with
  | length n =>
    rw [hf] at h
    exact h
  | chunked =>
    rw [hf] at h
    exact P.chunks_mono hle h

/-- A body is within the limit, if what its header says of its length is. -/
theorem readBody_limit (h : P.readBody limit head b = .done content n)
    (hlim : P.contentLength head ≤ limit) : content.length ≤ limit := by
  unfold readBody at h
  unfold contentLength at hlim
  cases hf : P.framing head with
  | chunked =>
    rw [hf] at h
    exact P.chunks_limit h
  | length n =>
    rw [hf] at h hlim
    simp only at h hlim
    split at h
    · cases h
      rw [List.length_take]
      exact Nat.le_trans (Nat.min_le_left _ _) hlim
    · cases h

/-- The limit does not matter for what the body is. -/
theorem readBody_unique {content' : Str} {n' : Nat} (h : P.readBody limit head b = .done content n)
    (h' : P.readBody limit' head b = .done content' n') : content = content' ∧ n = n' := by
  have hmax := readBody_mono (Nat.le_max_left limit limit') h
  rw [readBody_mono (Nat.le_max_right limit limit') h', BodyResult.done.injEq] at hmax
  exact ⟨hmax.1.symm, hmax.2.symm⟩

/-- Without a `Transfer-Encoding`, the body is as much as the header says. -/
theorem readBody_of_unchunked (hte : hasField head.fields (lit "Transfer-Encoding") = false)
    (h : P.readBody limit head b = .done content n) :
    n = P.contentLength head ∧ content = b.take n := by
  unfold readBody at h
  unfold contentLength
  cases hf : P.framing head with
  | chunked =>
    rw [P.framing_chunked hf] at hte
    cases hte
  | length m =>
    rw [hf] at h
    simp only at h ⊢
    split at h
    · cases h
      exact ⟨rfl, rfl⟩
    · cases h

/-- The body that a header with a length takes is as long as it says. -/
theorem contentLength_le (h : P.readBody limit head b = .done content n) :
    P.contentLength head ≤ content.length := by
  unfold readBody at h
  unfold contentLength
  cases hf : P.framing head with
  | chunked => exact Nat.zero_le _
  | length n =>
    rw [hf] at h
    simp only at h
    split at h
    · rename_i hle
      cases h
      rw [List.length_take]
      exact Nat.le_min.mpr ⟨Nat.le_refl _, hle⟩
    · cases h

end RequestParser

/-- A request as it is sent. -/
structure WireRequest (P : RequestParser) where
  head : RequestHeader
  headBytes : Str
  /-- The bytes that are sent for the body. -/
  body : Str
  content : Str
  parses : P.parse headBytes = .done head headBytes.length
  delimits : P.readBody content.length head body = .done content body.length

namespace WireRequest

variable {P : RequestParser}

def bytes (r : WireRequest P) : Str := r.headBytes ++ r.body

/-- A body that is within the limit is read, whatever comes behind it. -/
theorem readBody_eq (r : WireRequest P) {limit : Nat} (hlim : r.content.length ≤ limit) (c : Str) :
    P.readBody limit r.head (r.body ++ c) = .done r.content r.body.length :=
  RequestParser.readBody_append_done c (RequestParser.readBody_mono hlim r.delimits)

/-- What is read as the body is the body. -/
theorem readBody_unique (r : WireRequest P) {limit n : Nat} {content b c : Str}
    (h : P.readBody limit r.head b = .done content n) (hb : b <+: r.body ++ c) :
    content = r.content ∧ n = r.body.length := by
  obtain ⟨rest, hrest⟩ := hb
  have hall := RequestParser.readBody_append_done rest h
  rw [hrest] at hall
  exact RequestParser.readBody_unique hall (r.readBody_eq (Nat.le_refl _) c)

/-- The bytes of the body are enough to read it, if it is read with this limit. -/
theorem readBody_of_prefix (r : WireRequest P) {limit n : Nat} {content b c : Str}
    (h : P.readBody limit r.head (r.body ++ c) = .done content n) (hb : r.body <+: b) :
    P.readBody limit r.head b = .done r.content r.body.length := by
  obtain ⟨rest, rfl⟩ := hb
  refine RequestParser.readBody_append_done rest ?_
  have hcontent := (r.readBody_unique h List.prefix_rfl).1
  cases hf : P.framing r.head with
  | length n =>
    have hd := r.delimits
    unfold RequestParser.readBody at hd ⊢
    rw [hf] at hd ⊢
    exact hd
  | chunked =>
    refine RequestParser.readBody_mono ?_ r.delimits
    unfold RequestParser.readBody at h
    rw [hf] at h
    exact hcontent ▸ P.chunks_limit h

theorem contentLength_le (r : WireRequest P) : P.contentLength r.head ≤ r.content.length :=
  RequestParser.contentLength_le r.delimits

end WireRequest

variable {P : RequestParser}

/-- The bytes of requests that are sent one after the other. -/
def wireBytes (rs : List (WireRequest P)) : Str := rs.flatMap WireRequest.bytes

@[simp] theorem wireBytes_nil : wireBytes ([] : List (WireRequest P)) = [] := rfl

@[simp] theorem wireBytes_cons (r : WireRequest P) (rs : List (WireRequest P)) :
    wireBytes (r :: rs) = r.headBytes ++ (r.body ++ wireBytes rs) := by
  simp [wireBytes, WireRequest.bytes]

@[simp] theorem wireBytes_append (rs rs' : List (WireRequest P)) :
    wireBytes (rs ++ rs') = wireBytes rs ++ wireBytes rs' := List.flatMap_append

namespace RequestParser

/-- **A header at the start of the sent bytes is that of the first request**, and what the buffer
holds after it are bytes of its body, or later ones. -/
theorem frame {buffer wire : Str} {rs : List (WireRequest P)} {head : RequestHeader} {n : Nat}
    (hp : P.parse buffer = .done head n) (hs : buffer ++ wire = wireBytes rs) :
    ∃ r rest, rs = r :: rest ∧ r.head = head ∧ r.headBytes.length = n ∧
      buffer.drop n ++ wire = r.body ++ wireBytes rest := by
  have hpos := P.size_pos hp
  have hle := P.size_le hp
  cases rs with
  | nil =>
    have hb : buffer = [] := (List.append_eq_nil_iff.mp hs).1
    rw [hb, List.length_nil] at hle
    omega
  | cons r rest =>
    rw [wireBytes_cons] at hs
    have hall := P.done_append wire hp
    rw [hs, P.done_append _ r.parses] at hall
    obtain ⟨hhead, hn⟩ : r.head = head ∧ r.headBytes.length = n := by simpa using hall
    refine ⟨r, rest, rfl, hhead, hn, ?_⟩
    have hdrop := congrArg (List.drop n) hs
    rwa [List.drop_append_of_le_length hle, ← hn, List.drop_left, hn] at hdrop

/-- A buffer that holds the whole header of the first request is enough for the parser. -/
theorem parse_of_headBytes {buffer : Str} {r : WireRequest P} (h : r.headBytes <+: buffer) :
    P.parse buffer = .done r.head r.headBytes.length := by
  obtain ⟨c, rfl⟩ := h
  exact P.done_append c r.parses

end RequestParser

/-! ## A parser for plain requests -/

/-- A method by its text. -/
def parseMethod (s : Str) : Method :=
  if s = lit "GET" then .get else if s = lit "POST" then .post else .unknown

/-- A field line: a name without a colon, and a value after one space. -/
def parseField (line : Str) : Option (Str × Str) :=
  match line.dropInfix? (lit ": ") with
  | some (name, value) => some (name, value)
  | none => none

/-- The lines of a header block. -/
def parseLines (block : Str) : Option RequestHeader :=
  match split block (lit "\r\n") with
  | start :: fields =>
    match split start (lit " "), fields.mapM parseField with
    | [method, target, version], some fields =>
      if version = lit "HTTP/1.1" then
        some { method := parseMethod method, target := target, fields := fields }
      else none
    | _, _ => none
  | [] => none

/-- A decimal number. -/
def parseDecimal (s : Str) : Nat := s.foldl (fun n b => n * 10 + (b.toNat - 48)) 0

/-- The header of the first complete block. -/
def parseHeader (b : Str) : HeaderResult :=
  match b.dropInfix? (lit "\r\n\r\n") with
  | none => .needMore
  | some (block, _) =>
    match parseLines block with
    | some head => .done head (block.length + 4)
    | none => .error

theorem parseHeader_append {b block rest : Str} (c : Str)
    (h : b.dropInfix? (lit "\r\n\r\n") = some (block, rest)) :
    parseHeader (b ++ c) = parseHeader b := by
  unfold parseHeader
  rw [dropInfix?_append_right h c, h]

theorem parseHeader_cases (b : Str) :
    parseHeader b = .needMore ∨ ∃ block rest, b.dropInfix? (lit "\r\n\r\n") = some (block, rest) ∧
      (parseHeader b = .error ∨ ∃ head, parseHeader b = .done head (block.length + 4)) := by
  unfold parseHeader
  cases hb : b.dropInfix? (lit "\r\n\r\n") with
  | none => exact .inl rfl
  | some br =>
    obtain ⟨block, rest⟩ := br
    refine .inr ⟨block, rest, rfl, ?_⟩
    cases hl : parseLines block with
    | none => exact .inl (by simp [hl])
    | some head => exact .inr ⟨head, by simp [hl]⟩

/-- A hexadecimal digit. -/
def parseDigit (b : UInt8) : Option Nat :=
  if byte '0' ≤ b ∧ b ≤ byte '9' then some (b.toNat - 48)
  else if byte 'a' ≤ b ∧ b ≤ byte 'f' then some (b.toNat - 87)
  else if byte 'A' ≤ b ∧ b ≤ byte 'F' then some (b.toNat - 55)
  else none

/-- The size of a chunk, in hexadecimal. -/
def parseSize : Str → Option Nat
  | [] => none
  | s => s.foldlM (fun n b => (parseDigit b).map (n * 16 + ·)) 0

/-- One chunk: the line with its size, and so many bytes before a line break. -/
def parseChunk (limit : Nat) (b : Str) : BodyResult :=
  match b.dropInfix? (lit "\r\n") with
  | none => .needMore
  | some (line, rest) =>
    match parseSize line with
    | none => .error
    | some n =>
      if limit < n then .error
      else if rest.length < n + 2 then .needMore
      else if (rest.drop n).take 2 = lit "\r\n" then .done (rest.take n) (line.length + 2 + n + 2)
      else .error

/-- Chunks up to an empty one. -/
def parseChunks : Nat → Nat → Str → BodyResult
  | 0, _, _ => .needMore
  | fuel + 1, limit, b =>
    match parseChunk limit b with
    | .needMore => .needMore
    | .error => .error
    | .done data size =>
      if data = [] then .done [] size
      else
        match parseChunks fuel (limit - data.length) (b.drop size) with
        | .done content n => .done (data ++ content) (size + n)
        | .needMore => .needMore
        | .error => .error

theorem parseChunk_append {limit : Nat} {b : Str} (c : Str) (h : parseChunk limit b ≠ .needMore) :
    parseChunk limit (b ++ c) = parseChunk limit b := by
  unfold parseChunk at h ⊢
  cases hb : b.dropInfix? (lit "\r\n") with
  | none =>
    rw [hb] at h
    exact absurd rfl h
  | some lr =>
    obtain ⟨line, rest⟩ := lr
    rw [dropInfix?_append_right hb c]
    rw [hb] at h
    simp only at h ⊢
    cases hn : parseSize line with
    | none => rfl
    | some n =>
      rw [hn] at h
      simp only at h ⊢
      by_cases hlim : limit < n
      · rw [if_pos hlim, if_pos hlim]
      · rw [if_neg hlim] at h ⊢
        rw [if_neg hlim]
        have hlen : ¬ rest.length < n + 2 := fun hlt => h (if_pos hlt)
        have hlen' : ¬ (rest ++ c).length < n + 2 := by
          rw [List.length_append]
          omega
        have htwo : 2 ≤ (rest.drop n).length := by
          rw [List.length_drop]
          omega
        rw [if_neg hlen, if_neg hlen', List.drop_append_of_le_length (by omega),
          List.take_append_of_le_length htwo, List.take_append_of_le_length (by omega)]

/-- A chunk is within the bytes that were seen, and within the limit. -/
theorem parseChunk_done {limit : Nat} {b data : Str} {size : Nat}
    (h : parseChunk limit b = .done data size) : size ≤ b.length ∧ data.length ≤ limit ∧
      ∀ limit', data.length ≤ limit' → parseChunk limit' b = .done data size := by
  unfold parseChunk at h ⊢
  cases hb : b.dropInfix? (lit "\r\n") with
  | none => rw [hb] at h; cases h
  | some lr =>
    obtain ⟨line, rest⟩ := lr
    have hlen := congrArg List.length (dropInfix?_append hb)
    have h2 : (lit "\r\n").length = 2 := by decide
    simp only [List.length_append, h2] at hlen
    rw [hb] at h
    simp only at h ⊢
    cases hn : parseSize line with
    | none => rw [hn] at h; cases h
    | some n =>
      rw [hn] at h
      simp only at h ⊢
      split at h
      · cases h
      · rename_i hlim
        split at h
        · cases h
        · rename_i hrest
          split at h
          · rename_i hend
            cases h
            have htake : (rest.take n).length = n := by
              rw [List.length_take]
              omega
            refine ⟨by omega, by omega, fun limit' hle => ?_⟩
            rw [htake] at hle
            rw [if_neg (Nat.not_lt.mpr hle), if_neg hrest, if_pos hend]
          · cases h

theorem parseChunks_append {fuel fuel' limit : Nat} {b : Str} (hf : fuel ≤ fuel') (c : Str)
    (h : parseChunks fuel limit b ≠ .needMore) :
    parseChunks fuel' limit (b ++ c) = parseChunks fuel limit b := by
  induction fuel generalizing fuel' limit b with
  | zero => exact absurd rfl h
  | succ fuel ih =>
    obtain ⟨fuel', rfl⟩ : ∃ k, fuel' = k + 1 := ⟨fuel' - 1, by omega⟩
    unfold parseChunks at h ⊢
    cases hc : parseChunk limit b with
    | needMore =>
      rw [hc] at h
      exact absurd rfl h
    | error => rw [parseChunk_append c (by simp [hc]), hc]
    | done data size =>
      rw [parseChunk_append c (by simp [hc]), hc]
      rw [hc] at h
      simp only at h ⊢
      by_cases hd : data = []
      · rw [if_pos hd, if_pos hd]
      · rw [if_neg hd] at h ⊢
        rw [if_neg hd, List.drop_append_of_le_length (parseChunk_done hc).1,
          ih (by omega) fun hm => h (by rw [hm])]

/-- The chunks are within the bytes that were seen, and within the limit. -/
theorem parseChunks_done {fuel limit : Nat} {b content : Str} {n : Nat}
    (h : parseChunks fuel limit b = .done content n) : n ≤ b.length ∧ content.length ≤ limit := by
  induction fuel generalizing limit b content n with
  | zero => cases h
  | succ fuel ih =>
    unfold parseChunks at h
    cases hc : parseChunk limit b with
    | needMore => rw [hc] at h; cases h
    | error => rw [hc] at h; cases h
    | done data size =>
      obtain ⟨hsize, hdata, -⟩ := parseChunk_done hc
      rw [hc] at h
      simp only at h
      split at h
      · cases h
        exact ⟨hsize, Nat.zero_le _⟩
      · split at h
        · rename_i content' n' hrest
          cases h
          obtain ⟨hn, hlen⟩ := ih hrest
          rw [List.length_drop] at hn
          rw [List.length_append]
          omega
        · cases h
        · cases h

theorem parseChunks_mono {fuel limit limit' : Nat} {b content : Str} {n : Nat}
    (hle : limit ≤ limit') (h : parseChunks fuel limit b = .done content n) :
    parseChunks fuel limit' b = .done content n := by
  induction fuel generalizing limit limit' b content n with
  | zero => cases h
  | succ fuel ih =>
    unfold parseChunks at h ⊢
    cases hc : parseChunk limit b with
    | needMore => rw [hc] at h; cases h
    | error => rw [hc] at h; cases h
    | done data size =>
      obtain ⟨-, hdata, hmono⟩ := parseChunk_done hc
      rw [hc] at h
      rw [hmono limit' (by omega)]
      simp only at h ⊢
      split at h
      · rename_i hd
        rw [if_pos hd]
        exact h
      · rename_i hd
        rw [if_neg hd]
        split at h
        · rename_i content' n' hrest
          rw [ih (by omega) hrest]
          exact h
        · cases h
        · cases h

example : parseChunks 23 100 (lit "4\r\nping\r\n0\r\n\r\nGET / H") = .done (lit "ping") 14 := by decide

/-- The parser for plain requests. -/
def RequestParser.plain : RequestParser where
  parse := parseHeader
  framing head :=
    if head.fields.find (lit "Transfer-Encoding") = some (lit "chunked") then .chunked
    else .length (((head.fields.find (lit "Content-Length")).map parseDecimal).getD 0)
  chunks limit b := parseChunks b.length limit b
  parse_nil := by decide
  size_pos {b head n} h := by
    rcases parseHeader_cases b with hp | ⟨block, rest, -, hp | ⟨head', hp⟩⟩ <;> rw [hp] at h <;>
      cases h
    omega
  size_le {b head n} h := by
    rcases parseHeader_cases b with hp | ⟨block, rest, hb, hp | ⟨head', hp⟩⟩ <;> rw [hp] at h <;>
      cases h
    have hlen := congrArg List.length (dropInfix?_append hb)
    have h4 : (lit "\r\n\r\n").length = 4 := by decide
    simp only [List.length_append, h4] at hlen
    omega
  done_append {b head n} c h := by
    rcases parseHeader_cases b with hp | ⟨block, rest, hb, -⟩
    · rw [hp] at h; cases h
    · rw [parseHeader_append c hb, h]
  error_append {b} c h := by
    rcases parseHeader_cases b with hp | ⟨block, rest, hb, -⟩
    · rw [hp] at h; cases h
    · rw [parseHeader_append c hb, h]
  framing_chunked {head} h := by
    split at h
    · rename_i hte
      unfold hasField
      rw [hte]
      rfl
    · cases h
  chunks_le h := (parseChunks_done h).1
  chunks_limit h := (parseChunks_done h).2
  chunks_mono hle h := parseChunks_mono hle h
  chunks_append {limit b} c h := parseChunks_append (by simp) c h

end Server
end Malloy
