import Malloy.Core.Http.Message
import Malloy.Core.Utils

/-!
# HTTP Basic authentication (`server/auth/basic.hpp`)

`basic` is a validator of a policy: it lets a request through, or answers 401. It decodes the
credentials with a `Decoder` that is a parameter: what it leaves in the buffer, or `none` for
`std::invalid_argument`.

* `parseAuthField`: the method and the two parts of the credentials.
* `split_credentials_iff`: which decoded texts `split` cuts into exactly a user name and a
  password: the text `user:password`, unless the password is empty or contains a colon, and a few
  texts with more colons at the ends.
* `accepts_iff_correct`: for which fields `basic` is right about the credentials.
-/

namespace Malloy
namespace Server
namespace Auth

open Http Lib

/-- `Decoder::decode`: what is in the buffer afterwards; `none` is `std::invalid_argument`. -/
abbrev Decoder := Str → Option Str

structure AuthField where
  method : Str
  username : Str
  password : Str
  deriving DecidableEq

/-- `detail::parse_auth_field<Decoder>`. -/
def parseAuthField (decode : Decoder) (txt : Str) : Option AuthField := do
  let methodPos ← txt.idxOf? (byte ' ')
  let out ← decode (txt.drop (methodPos + 1))
  -- `out.erase(std::find(out.begin(), out.end(), '\0'), out.end())`
  let out := out.takeWhile (· != 0)
  match split out (lit ":") with
  | [username, password] =>
    some { method := txt.take methodPos, username := username, password := password }
  | _ => none

/-- The members of `basic<Decoder>`. -/
structure Basic where
  username : Str
  password : Str
  realm : Str
  charset : Str := lit "UTF-8"

namespace Basic

/-- `m_www_auth`, as `rebuild_www_auth_txt()` leaves it. -/
def wwwAuth (b : Basic) : Str :=
  lit "Basic realm=\"" ++ b.realm ++ lit "\", charset=\"" ++ b.charset ++ lit "\""

def notAuthedResp (b : Basic) : Response :=
  ({ status := 401 } : Response).set (lit "WWW-Authenticate") b.wwwAuth

/-- `operator()`: `none` lets the request through. -/
def call (decode : Decoder) (b : Basic) (h : RequestHeader) : Option Response :=
  match h.fields.find (lit "Authorization") with
  | none => some b.notAuthedResp
  | some value =>
    match parseAuthField decode value with
    | none => some b.notAuthedResp
    | some auth =>
      if auth.method ≠ lit "Basic" ∨ auth.username ≠ b.username ∨ auth.password ≠ b.password then
        some b.notAuthedResp
      else none

end Basic

/-! ## The credentials -/

def colon : UInt8 := byte ':'

/-- The text `user:password`. -/
def credentials (u p : Str) : Str := u ++ colon :: p

/-- The texts that `split` cuts into a user name without a colon and a password. -/
def CutsInto (d u p : Str) : Prop :=
  colon ∉ p ∧ (d = credentials u p ++ [colon] ∨ d = colon :: credentials u p ++ [colon] ∨
    p ≠ [] ∧ (d = credentials u p ∨ d = colon :: credentials u p))

/-- **What `split` takes for a user name and a password.** -/
theorem split_credentials_iff {d u p : Str} (hu : u ≠ []) (huc : colon ∉ u) :
    split d (lit ":") = [u, p] ↔ CutsInto d u p :=
  split_eq_pair_iff hu huc

/-! ## The field -/

/-- The first space of a field cuts it into a method without a space and the rest. -/
theorem idxOf_space {v : Str} {k : Nat} (h : v.idxOf? (byte ' ') = some k) :
    v = v.take k ++ byte ' ' :: v.drop (k + 1) := by
  obtain ⟨hk, hv, -⟩ := List.idxOf?_eq_some_iff.mp h
  rw [← hv, ← List.drop_eq_getElem_cons hk, List.take_append_drop]

/-- What `parse_auth_field` takes for these credentials. -/
theorem parseAuthField_iff {decode : Decoder} {v u p : Str} (hu : u ≠ []) (huc : colon ∉ u) :
    parseAuthField decode v = some { method := lit "Basic", username := u, password := p } ↔
      ∃ enc out, v = lit "Basic " ++ enc ∧ decode enc = some out ∧
        CutsInto (out.takeWhile (· != 0)) u p := by
  constructor
  · intro h
    obtain ⟨k, hk, h⟩ := Option.bind_eq_some_iff.mp h
    obtain ⟨out, hout, h⟩ := Option.bind_eq_some_iff.mp h
    dsimp only at h
    split at h
    · rename_i u' p' hsplit
      obtain ⟨hm, rfl, rfl⟩ : v.take k = lit "Basic" ∧ u' = u ∧ p' = p := by simpa using h
      refine ⟨v.drop (k + 1), out, ?_, hout, (split_credentials_iff hu huc).mp hsplit⟩
      have hv := idxOf_space hk
      rw [hm] at hv
      exact hv
    · cases h
  · rintro ⟨enc, out, rfl, hout, hcut⟩
    have hk : (lit "Basic " ++ enc).idxOf? (byte ' ') = some 5 := rfl
    have hdrop : (lit "Basic " ++ enc).drop (5 + 1) = enc := rfl
    have htake : (lit "Basic " ++ enc).take 5 = lit "Basic" := rfl
    have hsplit := (split_credentials_iff hu huc).mpr hcut
    unfold parseAuthField
    simp only [hk, hdrop, htake, hout, hsplit, bind, Option.bind]

/-- A text without NUL, and NULs after it. -/
def Padded (out d : Str) : Prop := ∃ n, out = d ++ List.replicate n 0 ∧ (0 : UInt8) ∉ d

theorem takeWhile_padded {out d : Str} (h : Padded out d) : out.takeWhile (· != 0) = d := by
  obtain ⟨n, rfl, hd⟩ := h
  have hpad : (List.replicate n (0 : UInt8)).takeWhile (· != 0) = [] := by cases n <;> rfl
  rw [List.takeWhile_append_of_pos (fun a ha => ?_), hpad, List.append_nil]
  simpa using fun h0 : a = 0 => hd (h0 ▸ ha)

namespace Basic

/-- The field is `Basic` and an encoding, which decodes to a buffer for which `P` holds. -/
def DecodesTo (decode : Decoder) (h : RequestHeader) (P : Str → Prop) : Prop :=
  ∃ enc out, h.fields.find (lit "Authorization") = some (lit "Basic " ++ enc) ∧
    decode enc = some out ∧ P out

/-- The field decodes to exactly the configured credentials. -/
def Correct (decode : Decoder) (b : Basic) (h : RequestHeader) : Prop :=
  DecodesTo decode h fun out => Padded out (credentials b.username b.password)

/-- The decoder leaves a text without NUL, and NULs after it, when it decodes this field. -/
def PadsWithNul (decode : Decoder) (h : RequestHeader) : Prop :=
  ∀ enc out, h.fields.find (lit "Authorization") = some (lit "Basic " ++ enc) →
    decode enc = some out → ∃ d, Padded out d

/-- The texts that `split` cuts wrongly: the credentials, if the password is empty or has a colon;
and, for a password without a colon, the credentials between more colons. -/
def Misread (d u p : Str) : Prop :=
  (d = credentials u p ∧ (p = [] ∨ colon ∈ p)) ∨
    colon ∉ p ∧ (d = credentials u p ++ [colon] ∨ d = colon :: credentials u p ++ [colon] ∨
      p ≠ [] ∧ d = colon :: credentials u p)

/-- The field decodes to a text that `split` cuts wrongly. -/
def Mistaken (decode : Decoder) (b : Basic) (h : RequestHeader) : Prop :=
  DecodesTo decode h fun out => ∃ d, Padded out d ∧ Misread d b.username b.password

theorem cutsInto_iff_of_not_misread {d u p : Str} :
    (CutsInto d u p ↔ d = credentials u p) ↔ ¬ Misread d u p := by
  unfold CutsInto Misread
  have h1 : credentials u p ≠ credentials u p ++ [colon] := by simp
  have h2 : credentials u p ≠ colon :: credentials u p ++ [colon] := fun h => by
    have := congrArg List.length h
    simp at this
    omega
  have h3 : credentials u p ≠ colon :: credentials u p := fun h => by
    have := congrArg List.length h
    simp at this
  by_cases hd : d = credentials u p
  · subst hd
    simp only [h1, h2, h3]
    tauto
  · tauto

/-- A field has one encoding. -/
theorem decodesTo_iff {decode : Decoder} {h : RequestHeader} {P : Str → Prop} {enc out : Str}
    (hv : h.fields.find (lit "Authorization") = some (lit "Basic " ++ enc))
    (hout : decode enc = some out) : DecodesTo decode h P ↔ P out := by
  constructor
  · rintro ⟨enc', out', hv', hout', hP⟩
    rw [hv] at hv'
    have he : enc = enc' := List.append_cancel_left (Option.some.inj hv')
    subst he
    rw [hout] at hout'
    cases hout'
    exact hP
  · exact fun hP => ⟨enc, out, hv, hout, hP⟩

theorem padsWithNul_of {decode : Decoder} {h : RequestHeader} {enc out d : Str}
    (hv : h.fields.find (lit "Authorization") = some (lit "Basic " ++ enc))
    (hout : decode enc = some out) (hd : Padded out d) : PadsWithNul decode h := by
  intro enc' out' hv' hout'
  exact (decodesTo_iff (P := fun out => ∃ d, Padded out d) hv hout).mpr ⟨d, hd⟩
    |> (decodesTo_iff hv' hout').mp

/-- `basic` lets a request through exactly if the field is cut into the credentials. -/
theorem call_eq_none_iff {decode : Decoder} {b : Basic} {h : RequestHeader}
    (hu : b.username ≠ []) (huc : colon ∉ b.username) :
    b.call decode h = none ↔
      DecodesTo decode h fun out =>
        CutsInto (out.takeWhile (· != 0)) b.username b.password := by
  have hparse : b.call decode h = none ↔ ∃ v, h.fields.find (lit "Authorization") = some v ∧
      parseAuthField decode v =
        some { method := lit "Basic", username := b.username, password := b.password } := by
    unfold call
    cases h.fields.find (lit "Authorization") with
    | none => simp
    | some v =>
      cases hp : parseAuthField decode v with
      | none => simp [hp]
      | some auth =>
        obtain ⟨method, username, password⟩ := auth
        simp [hp]
  rw [hparse]
  simp only [parseAuthField_iff hu huc]
  constructor
  · rintro ⟨v, hv, enc, out, rfl, h⟩
    exact ⟨enc, out, hv, h⟩
  · rintro ⟨enc, out, hv, h⟩
    exact ⟨_, hv, enc, out, rfl, h⟩

/-- **When `basic` is right.** It lets through exactly the requests with the configured
credentials, and answers 401 to all others, exactly if the field does not decode to a text that
`split` cuts wrongly. -/
theorem accepts_iff_correct {decode : Decoder} {b : Basic} {h : RequestHeader}
    (hu : b.username ≠ []) (huc : colon ∉ b.username) (hpad : PadsWithNul decode h) :
    ((b.call decode h = none ↔ b.Correct decode h) ∧
      (b.call decode h ≠ none → ∃ resp, b.call decode h = some resp ∧ resp.status = 401)) ↔
      ¬ b.Mistaken decode h := by
  have hresp : b.call decode h ≠ none →
      ∃ resp, b.call decode h = some resp ∧ resp.status = 401 := by
    intro hne
    refine ⟨b.notAuthedResp, ?_, rfl⟩
    revert hne
    unfold call
    split
    · simp
    · split
      · simp
      · split <;> simp
  rw [and_iff_left hresp, call_eq_none_iff hu huc]
  unfold Correct Mistaken
  by_cases hf : ∃ enc out, h.fields.find (lit "Authorization") = some (lit "Basic " ++ enc) ∧
      decode enc = some out
  · obtain ⟨enc, out, hv, hout⟩ := hf
    obtain ⟨d, hd⟩ := hpad enc out hv hout
    have htext : ∀ d', Padded out d' ↔ d' = d := fun d' =>
      ⟨fun hd' => (takeWhile_padded hd').symm.trans (takeWhile_padded hd), fun he => he ▸ hd⟩
    simp only [decodesTo_iff hv hout, htext, exists_eq_left, takeWhile_padded hd]
    rw [eq_comm (b := d)]
    exact cutsInto_iff_of_not_misread
  · have hno : ∀ P, ¬ DecodesTo decode h P := by
      rintro P ⟨enc, out, hv, hout, -⟩
      exact hf ⟨enc, out, hv, hout⟩
    simp [hno]

end Basic

/-! ## The decoder of the policies example -/

/-- The reverse table of the decoder. -/
def base64Value (c : UInt8) : Option Nat :=
  if 65 ≤ c ∧ c ≤ 90 then some (c.toNat - 65)
  else if 97 ≤ c ∧ c ≤ 122 then some (c.toNat - 71)
  else if 48 ≤ c ∧ c ≤ 57 then some (c.toNat + 4)
  else if c = byte '+' then some 62
  else if c = byte '/' then some 63
  else none

/-- `std::isspace` and the padding, which the decoder skips. -/
def base64Skipped (c : UInt8) : Bool := (9 ≤ c && c ≤ 13) || c == 32 || c == byte '='

/-- The loop of the decoder, with its accumulator and the number of bits in it. -/
def base64Loop : Str → Nat → Nat → Option Str
  | [], _, _ => some []
  | c :: rest, accumulator, bitsCollected =>
    if base64Skipped c then base64Loop rest accumulator bitsCollected
    else
      (base64Value c).bind fun v =>
        let accumulator := (accumulator * 64 + v) % 2 ^ 32
        if bitsCollected + 6 ≥ 8 then
          let bits := bitsCollected + 6 - 8
          (base64Loop rest accumulator bits).map
            ((accumulator / 2 ^ bits % 256).toUInt8 :: ·)
        else base64Loop rest accumulator (bitsCollected + 6)

/-- `b64_decode::decode`: the buffer keeps the size that was asked for. -/
def base64Decode : Decoder := fun encoded =>
  (base64Loop encoded 0 0).map fun out =>
    out ++ List.replicate ((4 * encoded.length + 2) / 3 - out.length) 0

/-- A request with these credentials, `user:password` in base 64. -/
def requestWith (encoded : Str) : RequestHeader :=
  { method := .get, target := lit "/", fields := [(lit "Authorization", lit "Basic " ++ encoded)] }

theorem Basic.accepts_iff_correct_user :
    let b : Basic := { username := lit "user", password := lit "password", realm := lit "malloy" }
    let h := requestWith (lit "dXNlcjpwYXNzd29yZA==")
    (b.call base64Decode h = none ↔ b.Correct base64Decode h) ∧
      (b.call base64Decode h ≠ none → ∃ resp, b.call base64Decode h = some resp ∧
        resp.status = 401) := by
  have hv : (requestWith (lit "dXNlcjpwYXNzd29yZA==")).fields.find (lit "Authorization") =
      some (lit "Basic " ++ lit "dXNlcjpwYXNzd29yZA==") := by decide
  have hout : base64Decode (lit "dXNlcjpwYXNzd29yZA==") =
      some (lit "user:password" ++ List.replicate 14 0) := by decide
  have hpad : Padded (lit "user:password" ++ List.replicate 14 0) (lit "user:password") :=
    ⟨14, rfl, by decide⟩
  refine (Basic.accepts_iff_correct (by decide) (by decide)
    (Basic.padsWithNul_of hv hout hpad)).mpr ?_
  unfold Basic.Mistaken
  rw [Basic.decodesTo_iff hv hout]
  rintro ⟨d, hd, hm⟩
  have hdt : d = lit "user:password" := (takeWhile_padded hd).symm.trans (takeWhile_padded hpad)
  subst hdt
  revert hm
  unfold Basic.Misread
  decide

/-- The password `pass:word` is never accepted. -/
theorem colon_password_rejected :
    ¬ ∀ (decode : Decoder) (b : Basic) (h : RequestHeader), b.username ≠ [] → colon ∉ b.username →
      (0 : UInt8) ∉ b.username → (0 : UInt8) ∉ b.password → Basic.PadsWithNul decode h →
      ((b.call decode h = none ↔ b.Correct decode h) ∧
        (b.call decode h ≠ none → ∃ resp, b.call decode h = some resp ∧ resp.status = 401)) := by
  intro hall
  have hv : (requestWith (lit "dXNlcjpwYXNzOndvcmQ=")).fields.find (lit "Authorization") =
      some (lit "Basic " ++ lit "dXNlcjpwYXNzOndvcmQ=") := by decide
  have hout : base64Decode (lit "dXNlcjpwYXNzOndvcmQ=") =
      some (lit "user:pass:word" ++ List.replicate 13 0) := by decide
  have hpad : Padded (lit "user:pass:word" ++ List.replicate 13 0) (lit "user:pass:word") :=
    ⟨13, rfl, by decide⟩
  have h := (hall base64Decode
    { username := lit "user", password := lit "pass:word", realm := lit "malloy" }
    (requestWith (lit "dXNlcjpwYXNzOndvcmQ=")) (by decide) (by decide) (by decide) (by decide)
    (Basic.padsWithNul_of hv hout hpad)).1.mpr ((Basic.decodesTo_iff hv hout).mpr hpad)
  exact absurd h (by decide)

end Auth
end Server
end Malloy
