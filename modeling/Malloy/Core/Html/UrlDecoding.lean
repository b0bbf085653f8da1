import Malloy.Core.Html.Urlencoded

/-!
# The cursors of `url_decode`

`url_decode` reads and writes one buffer. A round compares its read position with the size once,
and a `%` moves it by two more characters.

* `urlDecodeLogged`: the loop with the positions that it reads and writes
  (`urlDecodeLogged_snd`).
* `LoneEscape`: the values that make it read past the terminating zero
  (`readsInBounds_iff_not_loneEscape`, `Form.urlencoded_inBounds_iff`).
* `inPlace_accesses`: the write position never overtakes the read position.
* `urlDecode_encodes`: every percent-encoding of a text is decoded to it.
-/

namespace Malloy

open Lib

/-! ## The positions -/

/-- A position of the string that is read or written. -/
inductive Access where
  | read (i : Nat)
  | write (i : Nat)
  deriving DecidableEq

/-- The loop of `url_decode` with its accesses, in order. -/
def urlDecodeLogged : Nat → Str → Nat → Nat → List Access × Except Exn Str
  | 0, str, _, w => ([], .ok (str.take w))
  | fuel + 1, str, r, w =>
    match str[r]? with
    | none => ([], .ok (str.take w))
    | some v =>
      if v = byte '%' then
        match charAt str (r + 1) with
        | .error e => ([.read r, .read (r + 1)], .error e)
        | .ok high =>
          match charAt str (r + 2) with
          | .error e => ([.read r, .read (r + 1), .read (r + 2)], .error e)
          | .ok low =>
            let rest := urlDecodeLogged fuel (str.set w (hex2dec high <<< 4 ||| hex2dec low))
              (r + 3) (w + 1)
            (.read r :: .read (r + 1) :: .read (r + 2) :: .write w :: rest.1, rest.2)
      else
        let rest := urlDecodeLogged fuel (str.set w v) (r + 1) (w + 1)
        (.read r :: .write w :: rest.1, rest.2)

/-- What `url_decode` reads and writes. -/
def urlDecodeAccesses (str : Str) : List Access := (urlDecodeLogged (str.length + 1) str 0 0).1

section

variable {str : Str} {fuel i r w : Nat}

/-- The log does not change what is computed. -/
theorem urlDecodeLogged_snd (fuel : Nat) (str : Str) (r w : Nat) :
    (urlDecodeLogged fuel str r w).2 = urlDecodeLoop fuel str r w := by
  induction fuel generalizing str r w with
  | zero => rfl
  | succ fuel ih =>
    unfold urlDecodeLogged urlDecodeLoop
    cases str[r]? with
    | none => rfl
    | some v =>
      dsimp only
      split
      · cases charAt str (r + 1) with
        | error e => rfl
        | ok high =>
          cases charAt str (r + 2) with
          | error e => rfl
          | ok low => exact ih _ _ _
      · exact ih _ _ _

theorem charAt_of_le (h : i ≤ str.length) : ∃ c, charAt str i = .ok c := by
  unfold charAt
  split
  · exact ⟨0, rfl⟩
  · rw [List.getElem?_eq_getElem (by omega)]
    exact ⟨_, rfl⟩

/-- The induction over the rounds: the string ends, or ends behind a `%`, or a round goes over an
escape or another character. -/
theorem urlDecodeLogged_induction {n : Nat} {P : Nat → Nat → List Access → Except Exn Str → Prop}
    (stop : ∀ r w x, P r w [] (.ok x))
    (past : ∀ r w, n = r + 1 →
      P r w [.read r, .read (r + 1), .read (r + 2)] (.error .outOfBounds))
    (escape : ∀ r w log result, r + 2 ≤ n → P (r + 3) (w + 1) log result →
      P r w (.read r :: .read (r + 1) :: .read (r + 2) :: .write w :: log) result)
    (literal : ∀ r w log result, r < n → P (r + 1) (w + 1) log result →
      P r w (.read r :: .write w :: log) result)
    (fuel : Nat) (hn : str.length = n) (r w : Nat) :
    P r w (urlDecodeLogged fuel str r w).1 (urlDecodeLogged fuel str r w).2 := by
  induction fuel generalizing str r w with
  | zero => exact stop r w _
  | succ fuel ih =>
    have hset : ∀ v, (str.set w v).length = n := fun v => by rw [List.length_set, hn]
    rw [urlDecodeLogged]
    cases hv : str[r]? with
    | none => exact stop r w _
    | some v =>
      obtain ⟨hlt, -⟩ := List.getElem?_eq_some_iff.mp hv
      obtain ⟨high, hhigh⟩ := charAt_of_le (show r + 1 ≤ str.length by omega)
      dsimp only
      split
      · rw [hhigh]
        dsimp only
        by_cases hle : r + 2 ≤ str.length
        · obtain ⟨low, hlow⟩ := charAt_of_le hle
          rw [hlow]
          exact escape r w _ _ (by omega) (ih (hset _) (r + 3) (w + 1))
        · rw [charAt_past (by omega)]
          exact past r w (by omega)
      · exact literal r w _ _ (by omega) (ih (hset v) (r + 1) (w + 1))

/-- The log of a value that reads nothing past the terminating zero. -/
def ReadsInBounds (v : Str) : Prop := ∀ i, .read i ∈ urlDecodeAccesses v → i ≤ v.length

theorem urlDecodeLogged_inBounds_iff (fuel : Nat) (str : Str) (r w : Nat) :
    (∀ i, .read i ∈ (urlDecodeLogged fuel str r w).1 → i ≤ str.length) ↔
      (urlDecodeLogged fuel str r w).2 ≠ .error .outOfBounds := by
  refine urlDecodeLogged_induction (P := fun _ _ log result =>
    (∀ i, .read i ∈ log → i ≤ str.length) ↔ result ≠ .error .outOfBounds) ?_ ?_ ?_ ?_ fuel rfl r w
  · intro r w x
    simp
  · intro r w hlen
    refine iff_of_false (fun h => ?_) fun h => h rfl
    have := h (r + 2) (by simp)
    omega
  · intro r w log result hle ih
    rw [← ih]
    simp only [List.mem_cons, Access.read.injEq, reduceCtorEq, false_or]
    grind
  · intro r w log result hlt ih
    rw [← ih]
    simp only [List.mem_cons, Access.read.injEq, reduceCtorEq, false_or]
    grind

theorem readsInBounds_iff (v : Str) :
    ReadsInBounds v ↔ urlDecode v ≠ .error .outOfBounds := by
  unfold ReadsInBounds urlDecodeAccesses
  rw [urlDecodeLogged_inBounds_iff, urlDecodeLogged_snd]
  rfl

end

/-! ## Truncated escapes -/

/-- Complete escapes and other characters. -/
inductive Complete : Str → Prop where
  | nil : Complete []
  | literal {c : UInt8} {u : Str} : c ≠ byte '%' → Complete u → Complete (c :: u)
  | escape {high low : UInt8} {u : Str} : Complete u → Complete (byte '%' :: high :: low :: u)

/-- The last character is a `%` that is not part of an escape. -/
def LoneEscape (v : Str) : Prop := ∃ u, Complete u ∧ v = u ++ [byte '%']

theorem not_loneEscape_nil : ¬ LoneEscape [] := by
  rintro ⟨u, -, h⟩
  cases u <;> cases h

theorem loneEscape_literal_iff {c : UInt8} {v : Str} (hc : c ≠ byte '%') :
    LoneEscape (c :: v) ↔ LoneEscape v := by
  constructor
  · rintro ⟨u, hu, h⟩
    cases hu with
    | nil =>
      obtain ⟨rfl, -⟩ := List.cons.inj h
      exact absurd rfl hc
    | literal _ hu =>
      obtain ⟨rfl, rfl⟩ := List.cons.inj h
      exact ⟨_, hu, rfl⟩
    | escape _ =>
      obtain ⟨rfl, -⟩ := List.cons.inj h
      exact absurd rfl hc
  · rintro ⟨u, hu, rfl⟩
    exact ⟨c :: u, .literal hc hu, rfl⟩

theorem loneEscape_escape_iff {high low : UInt8} {v : Str} :
    LoneEscape (byte '%' :: high :: low :: v) ↔ LoneEscape v := by
  constructor
  · rintro ⟨u, hu, h⟩
    cases hu with
    | nil => cases h
    | literal hc _ =>
      obtain ⟨rfl, -⟩ := List.cons.inj h
      exact absurd rfl hc
    | escape hu =>
      simp only [List.cons_append, List.cons.injEq, true_and] at h
      obtain ⟨rfl, rfl, rfl⟩ := h
      exact ⟨_, hu, rfl⟩
  · rintro ⟨u, hu, rfl⟩
    exact ⟨_, .escape hu, rfl⟩

theorem not_loneEscape_pair (high : UInt8) : ¬ LoneEscape [byte '%', high] := by
  rintro ⟨u, hu, h⟩
  cases hu with
  | nil => cases h
  | literal hc _ =>
    obtain ⟨rfl, -⟩ := List.cons.inj h
    exact hc rfl
  | escape hu =>
    have := congrArg List.length h
    simp at this

/-- Only a lone `%` is not decoded. -/
theorem percentDecode_cases (v : Str) :
    (LoneEscape v ∧ percentDecode v = .error .outOfBounds) ∨
      (¬ LoneEscape v ∧ ∃ x, percentDecode v = .ok x) := by
  fun_induction percentDecode v with
  | case1 => exact .inr ⟨not_loneEscape_nil, [], rfl⟩
  | case2 => exact .inl ⟨⟨[], .nil, rfl⟩, rfl⟩
  | case3 high => exact .inr ⟨not_loneEscape_pair high, _, rfl⟩
  | case4 high low rest ih =>
    rw [loneEscape_escape_iff]
    rcases ih with ⟨hlone, h⟩ | ⟨hlone, x, h⟩
    · exact .inl ⟨hlone, by rw [h]; rfl⟩
    · exact .inr ⟨hlone, _, by rw [h]; rfl⟩
  | case5 c rest hc ih =>
    rw [loneEscape_literal_iff hc]
    rcases ih with ⟨hlone, h⟩ | ⟨hlone, x, h⟩
    · exact .inl ⟨hlone, by rw [h]; rfl⟩
    · exact .inr ⟨hlone, _, by rw [h]; rfl⟩

theorem urlDecode_of_loneEscape {v : Str} (h : LoneEscape v) :
    urlDecode v = .error .outOfBounds := by
  rw [urlDecode_eq]
  exact (percentDecode_cases v).elim And.right fun hno => absurd h hno.1

theorem urlDecode_of_not_loneEscape {v : Str} (h : ¬ LoneEscape v) : ∃ x, urlDecode v = .ok x := by
  rw [urlDecode_eq]
  exact (percentDecode_cases v).elim (fun hyes => absurd hyes.1 h) And.right

/-- **Which values are decoded within their bounds.** -/
theorem readsInBounds_iff_not_loneEscape (v : Str) : ReadsInBounds v ↔ ¬ LoneEscape v := by
  rw [readsInBounds_iff]
  constructor
  · exact fun h hlone => h (urlDecode_of_loneEscape hlone)
  · intro hlone h
    obtain ⟨x, hx⟩ := urlDecode_of_not_loneEscape hlone
    rw [hx] at h
    cases h

section

variable {r w : Nat}

/-! ## The write position -/

/-- Every position was read before it is written, and is not read afterwards. -/
def InPlace (log : List Access) : Prop :=
  ∀ before w after, log = before ++ .write w :: after →
    .read w ∈ before ∧ ∀ i, .read i ∈ after → w < i

/-- The same, where the positions below `n` were read before. -/
def InPlaceFrom (n : Nat) (log : List Access) : Prop :=
  ∀ before w after, log = before ++ .write w :: after →
    (w < n ∨ .read w ∈ before) ∧ ∀ i, .read i ∈ after → w < i

theorem inPlaceFrom_of_reads {n : Nat} {log : List Access} (h : ∀ w, .write w ∉ log) :
    InPlaceFrom n log := by
  rintro before w after rfl
  exact absurd (by simp) (h w)

theorem InPlaceFrom.read {n : Nat} {log : List Access} (h : InPlaceFrom (n + 1) log) :
    InPlaceFrom n (.read n :: log) := by
  intro before w after hlog
  cases before with
  | nil => cases hlog
  | cons x before =>
    obtain ⟨rfl, rfl⟩ := List.cons.inj hlog
    obtain ⟨hw, hafter⟩ := h before w after rfl
    refine ⟨?_, hafter⟩
    rcases hw with hw | hw
    · rcases Nat.lt_succ_iff_lt_or_eq.mp hw with hw | rfl
      · exact .inl hw
      · exact .inr List.mem_cons_self
    · exact .inr (List.mem_cons_of_mem _ hw)

theorem InPlaceFrom.write {n : Nat} {log : List Access} (h : InPlaceFrom n log) (hw : w < n)
    (hreads : ∀ i, .read i ∈ log → n ≤ i) : InPlaceFrom n (.write w :: log) := by
  intro before v after hlog
  cases before with
  | nil =>
    obtain ⟨hv, rfl⟩ := List.cons.inj hlog
    cases hv
    exact ⟨.inl hw, fun i hi => Nat.lt_of_lt_of_le hw (hreads i hi)⟩
  | cons x before =>
    obtain ⟨rfl, rfl⟩ := List.cons.inj hlog
    obtain ⟨hv, hafter⟩ := h before v after rfl
    exact ⟨hv.imp_right (List.mem_cons_of_mem _), hafter⟩

theorem inPlaceFrom_logged (fuel : Nat) (str : Str) (hw : w ≤ r) :
    (∀ i, .read i ∈ (urlDecodeLogged fuel str r w).1 → r ≤ i) ∧
      InPlaceFrom r (urlDecodeLogged fuel str r w).1 := by
  refine urlDecodeLogged_induction (P := fun r w log _ => w ≤ r →
    (∀ i, .read i ∈ log → r ≤ i) ∧ InPlaceFrom r log) ?_ ?_ ?_ ?_ fuel rfl r w hw
  · intro r w x _
    exact ⟨fun i hi => (by cases hi), inPlaceFrom_of_reads fun w hw => (by cases hw)⟩
  · intro r w _ _
    refine ⟨fun i hi => ?_, inPlaceFrom_of_reads fun w hw => ?_⟩
    · simp only [List.mem_cons, Access.read.injEq, List.not_mem_nil, or_false] at hi
      omega
    · simp at hw
  · intro r w log result _ ih hw
    obtain ⟨hreads, hlog⟩ := ih (by omega)
    refine ⟨fun i hi => ?_, ((hlog.write (w := w) (by omega) hreads).read).read.read⟩
    simp only [List.mem_cons, Access.read.injEq, reduceCtorEq, false_or] at hi
    grind
  · intro r w log result _ ih hw
    obtain ⟨hreads, hlog⟩ := ih (by omega)
    refine ⟨fun i hi => ?_, (hlog.write (w := w) (by omega) hreads).read⟩
    simp only [List.mem_cons, Access.read.injEq, reduceCtorEq, false_or] at hi
    grind

/-- **The write position never overtakes the read position**, whatever the string is. -/
theorem inPlace_accesses (str : Str) : InPlace (urlDecodeAccesses str) := by
  intro before w after hlog
  obtain ⟨hw, hafter⟩ := (inPlaceFrom_logged (str.length + 1) str (Nat.le_refl 0)).2 _ _ _ hlog
  exact ⟨hw.resolve_left (Nat.not_lt_zero w), hafter⟩

end

/-! ## Encodings -/

/-- The upper or lower case digit of a number below 16. -/
def IsHexDigit (d n : UInt8) : Prop :=
  d = Html.hexDigit n ∨ d = if n < 10 then byte '0' + n else byte 'a' + (n - 10)

instance (d n : UInt8) : Decidable (IsHexDigit d n) := inferInstanceAs (Decidable (_ ∨ _))

/-- The text is written with each byte as itself or as `%` and its two digits. -/
inductive Encodes : Str → Str → Prop where
  | nil : Encodes [] []
  | literal {c : UInt8} {s e : Str} : c ≠ byte '%' → Encodes s e → Encodes (c :: s) (c :: e)
  | escape {c high low : UInt8} {s e : Str} : IsHexDigit high (c >>> 4) →
      IsHexDigit low (c &&& 15) → Encodes s e → Encodes (c :: s) (byte '%' :: high :: low :: e)

theorem hex2dec_of_isHexDigit {d n : UInt8} (hn : n < 16) (h : IsHexDigit d n) : hex2dec d = n := by
  have hdigits : ∀ n : UInt8, n < 16 → hex2dec (Html.hexDigit n) = n ∧
      hex2dec (if n < 10 then byte '0' + n else byte 'a' + (n - 10)) = n :=
    forall_byte (P := fun n => n < 16 → hex2dec (Html.hexDigit n) = n ∧
      hex2dec (if n < 10 then byte '0' + n else byte 'a' + (n - 10)) = n) (by decide +kernel)
  rcases h with rfl | rfl
  · exact (hdigits n hn).1
  · exact (hdigits n hn).2

theorem nibbles : ∀ c : UInt8, c >>> 4 < 16 ∧ c &&& 15 < 16 ∧ (c >>> 4) <<< 4 ||| (c &&& 15) = c :=
  forall_byte (P := fun c => c >>> 4 < 16 ∧ c &&& 15 < 16 ∧ (c >>> 4) <<< 4 ||| (c &&& 15) = c)
    (by decide +kernel)

theorem percentDecode_encodes {s e : Str} (h : Encodes s e) : percentDecode e = .ok s := by
  induction h with
  | nil => rfl
  | literal hc _ ih =>
    rw [Html.percentDecode_cons hc, ih]
    rfl
  | @escape c high low s e hhigh hlow _ ih =>
    obtain ⟨h4, h15, hc⟩ := nibbles c
    rw [percentDecode.eq_def]
    dsimp only
    rw [if_pos rfl, ih, hex2dec_of_isHexDigit h4 hhigh, hex2dec_of_isHexDigit h15 hlow, hc]
    rfl

/-- **Every percent-encoding is undone**, in place. -/
theorem urlDecode_encodes {s e : Str} (h : Encodes s e) :
    urlDecode e = .ok s ∧ InPlace (urlDecodeAccesses e) :=
  ⟨(urlDecode_eq e).trans (percentDecode_encodes h), inPlace_accesses e⟩

/-- Mixed cases: `%3e%3Ea` is `>>a`. -/
theorem urlDecode_encodes_mixed :
    urlDecode (lit "%3e%3Ea") = .ok (lit ">>a") ∧ InPlace (urlDecodeAccesses (lit "%3e%3Ea")) :=
  urlDecode_encodes (.escape (by decide) (by decide) (.escape (by decide) (by decide)
    (.literal (by decide) .nil)))

namespace Html

open Http

/-! ## The values of a body -/

/-- The name and the value of a pair that `split` cuts into two parts. -/
def cutPair (pairStr : Str) : Option (Str × Str) :=
  match split pairStr (lit "=") with
  | [name, value] => some (name, value)
  | _ => none

/-- The values that are decoded in an URL-encoded body. -/
def urlencodedValues (body : Str) : List Str :=
  ((split body (lit "&")).filterMap cutPair).map Prod.snd

/-- What is recorded for a pair. -/
def urlencodedField (pairStr : Str) : Option FormFieldData :=
  match cutPair pairStr with
  | some (name, value) => (urlDecode value).toOption.map fun content =>
      { name := name, content := content }
  | none => none

namespace Form

/-- One round of the loop over the pairs. -/
theorem urlencodedFields_cons (pairStr : Str) (pairs : List Str) :
    urlencodedFields (pairStr :: pairs) =
      match cutPair pairStr with
      | some (name, value) => do
        let content ← urlDecode value
        let fields ← urlencodedFields pairs
        return { name := name, content := content } :: fields
      | none => urlencodedFields pairs := by
  rw [urlencodedFields, cutPair]
  generalize split pairStr (lit "=") = parts
  rcases parts with _ | ⟨name, _ | ⟨value, _ | ⟨part, parts⟩⟩⟩
  · rfl
  · rfl
  · rfl
  · rfl

/-- The loop over the pairs, up to the first value that is not decoded. -/
theorem urlencodedFields_cases (pairs : List Str) :
    ((∃ v ∈ (pairs.filterMap cutPair).map Prod.snd, LoneEscape v) ∧
      urlencodedFields pairs = .error .outOfBounds) ∨
    ((∀ v ∈ (pairs.filterMap cutPair).map Prod.snd, ¬ LoneEscape v) ∧
      urlencodedFields pairs = .ok (pairs.filterMap urlencodedField)) := by
  induction pairs with
  | nil => exact .inr ⟨fun v hv => (by cases hv), rfl⟩
  | cons pairStr pairs ih =>
    rw [urlencodedFields_cons, List.filterMap_cons, List.filterMap_cons, urlencodedField]
    cases cutPair pairStr with
    | none => exact ih
    | some p =>
      obtain ⟨name, value⟩ := p
      dsimp only
      rw [List.map_cons]
      by_cases hlone : LoneEscape value
      · refine .inl ⟨⟨value, List.mem_cons_self, hlone⟩, ?_⟩
        rw [urlDecode_of_loneEscape hlone]
        rfl
      · obtain ⟨x, hx⟩ := urlDecode_of_not_loneEscape hlone
        rw [hx]
        rcases ih with ⟨⟨v, hv, hv'⟩, h⟩ | ⟨hno, h⟩
        · refine .inl ⟨⟨v, List.mem_cons_of_mem _ hv, hv'⟩, ?_⟩
          rw [h]
          rfl
        · refine .inr ⟨List.forall_mem_cons.mpr ⟨hlone, hno⟩, ?_⟩
          rw [h]
          rfl

/-- **When the decoding of a body stays in bounds**: exactly if no value ends in a lone `%`. In the
other bodies the parser reads past the end of a value. -/
theorem urlencoded_inBounds_iff (req : Request) :
    ((∀ v ∈ urlencodedValues req.body, ReadsInBounds v) ↔
      ∀ v ∈ urlencodedValues req.body, ¬ LoneEscape v) ∧
    (parseUrlencoded req = .error .outOfBounds ↔
      ∃ v ∈ urlencodedValues req.body, LoneEscape v) := by
  refine ⟨forall₂_congr fun v _ => readsInBounds_iff_not_loneEscape v, ?_⟩
  unfold parseUrlencoded urlencodedValues
  rcases urlencodedFields_cases (split req.body (lit "&")) with ⟨hlone, h⟩ | ⟨hno, h⟩
  · rw [h]
    exact iff_of_true rfl hlone
  · rw [h]
    refine iff_of_false (fun he => by cases he) fun ⟨v, hv, hlone⟩ => hno v hv hlone

/-- The value of `a=%` is read behind its terminating zero. -/
theorem lone_escape_reads_past :
    urlencodedValues (lit "a=%") = [lit "%"] ∧
      urlDecodeAccesses (lit "%") = [.read 0, .read 1, .read 2] ∧
      ¬ ∀ v ∈ urlencodedValues (lit "a=%"), ReadsInBounds v := by
  have hvalues : urlencodedValues (lit "a=%") = [lit "%"] := by decide +kernel
  have haccesses : urlDecodeAccesses (lit "%") = [.read 0, .read 1, .read 2] := by decide
  refine ⟨hvalues, haccesses, fun h => ?_⟩
  have := h (lit "%") (by simp [hvalues]) 2 (by simp [haccesses])
  exact absurd this (by decide)

end Form

end Html
end Malloy
