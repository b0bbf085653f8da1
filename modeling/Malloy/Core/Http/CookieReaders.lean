import Malloy.Core.Http.Cookie
import Mathlib.Data.List.AList

/-!
# The two readers of a `Cookie` field (`core/http/utils.hpp`, `core/http/request.hpp`)

`cookie_value` splits the field at `"; "` and each pair at every `=`. The constructor of `request`
takes the first `=` of the whole field for the one separator of one cookie.

* `cookieValue_eq`: `cookie_value` returns the first value of that name that it can read. A value is
  not read if it is empty or has a `=` before its end, and loses a `=` at its end.
* `cookieValue_iff`: when this is the first value of that name.
* `agree_iff`: the two readers agree on at most one cookie.
-/

namespace Malloy
namespace Http

open Lib

/-! ## What `cookie_value` reads -/

instance (p : Str × Str) : Decidable (Sendable p) :=
  decidable_of_iff (p.1 ≠ [] ∧ byte '=' ∉ p.1 ∧ byte ';' ∉ p.1 ∧ byte ';' ∉ p.2)
    ⟨fun h => ⟨h.1, h.2.1, h.2.2.1, h.2.2.2⟩,
      fun h => ⟨h.name_ne, h.name_eq, h.name_semi, h.value_semi⟩⟩

/-- `cookie_value` does not skip the value. -/
def Readable (value : Str) : Prop := value ≠ [] ∧ byte '=' ∉ value.dropLast

instance (value : Str) : Decidable (Readable value) := inferInstanceAs (Decidable (_ ∧ _))

/-- What it makes of the value. -/
def withoutLastEq (value : Str) : Str :=
  if value.getLast? = some (byte '=') then value.dropLast else value

/-- The values of this name, in order. -/
def valuesNamed (name : Str) (ps : List (Str × Str)) : List Str :=
  (ps.filter fun p => p.1 = name).map Prod.snd

section

variable {value x name : Str} {p : Str × Str} {ps : List (Str × Str)} {fields : Fields}

theorem withoutLastEq_concat (x : Str) : withoutLastEq (x ++ [byte '=']) = x := by
  rw [withoutLastEq, List.getLast?_concat, if_pos rfl, List.dropLast_concat]

theorem withoutLastEq_of_not_mem (h : byte '=' ∉ value) : withoutLastEq value = value :=
  if_neg fun hlast => h (List.mem_of_getLast? hlast)

/-- A value that is read ends in a `=`, or has none. -/
theorem Readable.cases (h : Readable value) :
    (∃ x, byte '=' ∉ x ∧ value = x ++ [byte '=']) ∨ byte '=' ∉ value := by
  obtain ⟨hne, hinit⟩ := h
  rw [← List.dropLast_concat_getLast hne]
  by_cases hlast : value.getLast hne = byte '='
  · exact .inl ⟨value.dropLast, hinit, by rw [hlast]⟩
  · refine .inr fun hm => ?_
    rcases List.mem_append.mp hm with hm | hm
    · exact hinit hm
    · exact hlast (List.mem_singleton.mp hm).symm

theorem eq_not_mem_withoutLastEq (h : Readable value) : byte '=' ∉ withoutLastEq value := by
  rcases h.cases with ⟨x, hx, rfl⟩ | hv
  · rwa [withoutLastEq_concat]
  · rwa [withoutLastEq_of_not_mem hv]

/-- Only the value `=` is read as the empty one. -/
theorem withoutLastEq_eq_nil_iff (h : Readable value) :
    withoutLastEq value = [] ↔ value = lit "=" := by
  rcases h.cases with ⟨x, hx, rfl⟩ | hv
  · rw [withoutLastEq_concat]
    constructor
    · rintro rfl
      rfl
    · exact fun he => (List.append_eq_singleton_iff.mp he).elim And.left fun h => (by cases h.2)
  · rw [withoutLastEq_of_not_mem hv]
    refine iff_of_false h.1 fun he => hv ?_
    rw [he]
    exact List.mem_cons_self

theorem readable_concat_iff : Readable (x ++ [byte '=']) ↔ byte '=' ∉ x := by
  unfold Readable
  simp

theorem readable_of_not_mem (hne : value ≠ []) (h : byte '=' ∉ value) : Readable value :=
  ⟨hne, fun hm => h (List.mem_of_mem_dropLast hm)⟩

/-- A value is read as `x` if it is `x`, with or without a `=` behind it. -/
theorem withoutLastEq_eq_iff :
    Readable value ∧ withoutLastEq value = x ↔
      byte '=' ∉ x ∧ (value = x ++ [byte '='] ∨ x ≠ [] ∧ value = x) := by
  constructor
  · rintro ⟨hread, rfl⟩
    refine ⟨eq_not_mem_withoutLastEq hread, ?_⟩
    rcases hread.cases with ⟨x, -, rfl⟩ | hv
    · exact .inl (by rw [withoutLastEq_concat])
    · rw [withoutLastEq_of_not_mem hv]
      exact .inr ⟨hread.1, rfl⟩
  · rintro ⟨hx, rfl | ⟨hne, rfl⟩⟩
    · exact ⟨readable_concat_iff.mpr hx, withoutLastEq_concat x⟩
    · exact ⟨readable_of_not_mem hne hx, withoutLastEq_of_not_mem hx⟩

theorem Sendable.split_pairText_eq_iff (h : Sendable p) :
    split (pairText p) (lit "=") = [p.1, x] ↔ Readable p.2 ∧ withoutLastEq p.2 = x := by
  have hbehind : ∀ t : Str, pairText p = p.1 ++ byte '=' :: t ↔ p.2 = t := by
    intro t
    rw [pairText, List.append_assoc, List.append_right_inj]
    exact List.append_right_inj [byte '=']
  have hhead : ∀ t : Str, pairText p ≠ byte '=' :: t := by
    intro t ht
    obtain ⟨c, name, hname⟩ := List.exists_cons_of_ne_nil h.name_ne
    rw [pairText, hname] at ht
    obtain ⟨rfl, -⟩ := List.cons.inj ht
    exact h.name_eq (hname ▸ List.mem_cons_self)
  rw [show lit "=" = [byte '='] from rfl, split_eq_pair_iff h.name_ne h.name_eq,
    withoutLastEq_eq_iff]
  simp only [List.append_assoc, List.cons_append, hbehind, hhead, false_or, or_false]

/-- **What is read of a pair.** -/
theorem Sendable.pairValue_eq_ite (h : Sendable p) :
    pairValue name (pairText p) =
      if p.1 = name ∧ Readable p.2 then some (withoutLastEq p.2) else none := by
  by_cases hname : p.1 = name
  · subst hname
    by_cases hread : Readable p.2
    · rw [if_pos ⟨rfl, hread⟩, pairValue, h.split_pairText_eq_iff.mpr ⟨hread, rfl⟩]
      exact if_pos rfl
    · rw [if_neg (hread ·.2), pairValue]
      split
      · rename_i n v hsplit
        split
        · rename_i hn
          rw [hn] at hsplit
          exact absurd (h.split_pairText_eq_iff.mp hsplit).1 hread
        · rfl
      · rfl
  · rw [if_neg (hname ·.1), h.pairValue_of_ne hname]

/-- What is found first in the pairs of this name. -/
theorem findSome?_pairValue (h : ∀ p ∈ ps, Sendable p) :
    (ps.map pairText).findSome? (pairValue name) =
      ((valuesNamed name ps).find? Readable).map withoutLastEq := by
  induction ps with
  | nil => rfl
  | cons p ps ih =>
    obtain ⟨hp, hps⟩ := List.forall_mem_cons.mp h
    rw [List.map_cons, List.findSome?_cons, hp.pairValue_eq_ite, valuesNamed, List.filter_cons]
    by_cases hname : p.1 = name
    · by_cases hread : Readable p.2
      · simp [hname, hread]
      · simpa [hname, hread, valuesNamed] using ih hps
    · simpa [hname, valuesNamed] using ih hps

/-- **What `cookie_value` returns.** -/
theorem cookieValue_eq (hf : fields.find (lit "Cookie") = some (cookieText ps))
    (h : ∀ p ∈ ps, Sendable p) (name : Str) :
    cookieValue fields name = ((valuesNamed name ps).find? Readable).map withoutLastEq := by
  rw [← findSome?_pairValue h, cookieValue, hf]
  dsimp only
  by_cases hps : ps = []
  · rw [hps]
    rfl
  · rw [splitHeaderValue_cookieText hps h]

/-! ## The first value of a name -/

/-- The first value is read as it is: it is not empty and has no `=`, or it is empty and the first
value that is read is a `=`. -/
def FirstIsRead : List Str → Prop
  | [] => True
  | value :: values =>
    (value ≠ [] ∧ byte '=' ∉ value) ∨ (value = [] ∧ values.find? Readable = some (lit "="))

instance : (values : List Str) → Decidable (FirstIsRead values)
  | [] => inferInstanceAs (Decidable True)
  | _ :: _ => inferInstanceAs (Decidable (_ ∨ _))

theorem find?_readable_eq_head?_iff (values : List Str) :
    (values.find? Readable).map withoutLastEq = values.head? ↔ FirstIsRead values := by
  cases values with
  | nil => exact iff_of_true rfl trivial
  | cons value values =>
    rw [List.head?_cons, FirstIsRead]
    by_cases hread : Readable value
    · rw [List.find?_cons_of_pos (by simpa using hread), Option.map_some, Option.some.injEq]
      constructor
      · intro he
        refine .inl ⟨hread.1, ?_⟩
        rw [← he]
        exact eq_not_mem_withoutLastEq hread
      · rintro (⟨-, heq⟩ | ⟨hnil, -⟩)
        · exact withoutLastEq_of_not_mem heq
        · exact absurd hnil hread.1
    · rw [List.find?_cons_of_neg (by simpa using hread), Option.map_eq_some_iff]
      constructor
      · rintro ⟨w, hw, rfl⟩
        have hw' : Readable w := by simpa using List.find?_some hw
        by_cases hnil : withoutLastEq w = []
        · rw [(withoutLastEq_eq_nil_iff hw').mp hnil] at hw
          exact .inr ⟨hnil, hw⟩
        · exact absurd (readable_of_not_mem hnil (eq_not_mem_withoutLastEq hw')) hread
      · rintro (⟨hne, heq⟩ | ⟨rfl, hfind⟩)
        · exact absurd (readable_of_not_mem hne heq) hread
        · exact ⟨lit "=", hfind, rfl⟩

/-- **When `cookie_value` returns the first value of a name.** -/
theorem cookieValue_iff (hf : fields.find (lit "Cookie") = some (cookieText ps))
    (h : ∀ p ∈ ps, Sendable p) (name : Str) :
    cookieValue fields name = (ps.find? fun p => p.1 = name).map Prod.snd ↔
      FirstIsRead (valuesNamed name ps) := by
  have hhead : (ps.find? fun p => p.1 = name).map Prod.snd = (valuesNamed name ps).head? := by
    rw [valuesNamed, List.head?_map, List.head?_filter]
  rw [cookieValue_eq hf h, hhead, find?_readable_eq_head?_iff]

/-- An empty value in front of the other ones does not matter for their name. -/
theorem cookieValue_iff_twice :
    cookieValue [(lit "Cookie", lit "a=; b=1; b=2")] (lit "b") = some (lit "1") := by
  have hfield : Fields.find [(lit "Cookie", lit "a=; b=1; b=2")] (lit "Cookie") =
      some (cookieText [(lit "a", []), (lit "b", lit "1"), (lit "b", lit "2")]) := rfl
  exact (cookieValue_iff hfield (by decide) (lit "b")).mpr (by decide)

/-- A value in base64 with its padding is not found. -/
theorem padded_value_lost :
    Sendable (lit "token", lit "YQ==") ∧
      cookieText [(lit "token", lit "YQ==")] = lit "token=YQ==" ∧
      cookieValue [(lit "Cookie", lit "token=YQ==")] (lit "token") ≠
        (List.find? (fun p => p.1 = lit "token") [(lit "token", lit "YQ==")]).map Prod.snd :=
  ⟨by decide, by decide, by decide +kernel⟩

end

/-! ## The cookies of a `request` -/

/-- `malloy::http::request`, with the cookies that its constructor has recorded. -/
structure ReceivedRequest extends Request where
  cookies : AList fun _ : Str => Str

namespace ReceivedRequest

/-- What the constructor records for a field. -/
def recordCookie (cookies : AList fun _ : Str => Str) (field : Str × Str) :
    AList fun _ : Str => Str :=
  match field.2.find (lit "=") 0 with
  | none => cookies
  | some sepPos => cookies.insert (field.2.take sepPos) (field.2.drop (sepPos + 1))

/-- `request(msg_t&& raw)`: the loop is over all `Cookie` fields. -/
def ofRaw (raw : Request) : ReceivedRequest where
  toRequest := raw
  cookies := (raw.header.fields.filter (Fields.named (lit "Cookie"))).foldl recordCookie ∅

/-- `has_cookie(name)`. -/
def hasCookie (req : ReceivedRequest) (name : Str) : Bool := decide (name ∈ req.cookies)

/-- `cookie(name)`. -/
def cookie (req : ReceivedRequest) (name : Str) : Str := (req.cookies.lookup name).getD []

/-- The two readers find the same cookies, with the same values. -/
def Agree (raw : Request) : Prop :=
  ∀ name, (ofRaw raw).hasCookie name = (cookieValue raw.header.fields name).isSome ∧
    ∀ value, cookieValue raw.header.fields name = some value → (ofRaw raw).cookie name = value

section

variable {raw : Request} {key : Str} {p : Str × Str} {ps : List (Str × Str)}

theorem hasCookie_eq (req : ReceivedRequest) (name : Str) :
    req.hasCookie name = (req.cookies.lookup name).isSome := by
  rw [hasCookie, Bool.eq_iff_iff, decide_eq_true_iff, AList.lookup_isSome]

/-- The first pair of a field takes the rest of the field for its value. -/
theorem recordCookie_cookieText (hp : Sendable p) (cookies : AList fun _ : Str => Str) :
    recordCookie cookies (key, cookieText (p :: ps)) =
      cookies.insert p.1 (p.2 ++ if ps = [] then [] else lit "; " ++ cookieText ps) := by
  have htext : cookieText (p :: ps) =
      p.1 ++ lit "=" ++ (p.2 ++ if ps = [] then [] else lit "; " ++ cookieText ps) := by
    cases ps with
    | nil =>
      rw [if_pos rfl, List.append_nil]
      exact List.intercalate_singleton
    | cons q ps =>
      rw [if_neg (List.cons_ne_nil _ _), ← List.append_assoc, ← List.append_assoc]
      exact List.intercalate_cons_of_ne_nil (List.cons_ne_nil _ _)
  have hfirst : ¬ lit "=" <:+: p.1 ++ (lit "=").dropLast := by
    rw [show (lit "=").dropLast = [] from rfl, List.append_nil]
    exact fun hi => hp.name_eq (hi.subset List.mem_cons_self)
  have hfind : (cookieText (p :: ps)).find (lit "=") 0 = some (0 + p.1.length) :=
    find_of_first (List.cons_ne_nil _ _) htext hfirst
  rw [recordCookie]
  dsimp only
  rw [hfind, htext, Nat.zero_add]
  dsimp only
  congr 1
  · rw [List.append_assoc, List.take_left]
  · exact List.drop_left' (by simp [lit])

theorem cookies_ofRaw
    (hone : raw.header.fields.filter (Fields.named (lit "Cookie")) = [(key, cookieText ps)]) :
    (ofRaw raw).cookies = recordCookie ∅ (key, cookieText ps) := by
  rw [ofRaw, hone]
  rfl

theorem find_cookie
    (hone : raw.header.fields.filter (Fields.named (lit "Cookie")) = [(key, cookieText ps)]) :
    raw.header.fields.find (lit "Cookie") = some (cookieText ps) := by
  rw [Fields.find, ← List.head?_filter, hone]
  rfl

/-- A value that is neither empty nor has a `=` is read. -/
theorem cookieValue_eq_first
    (hone : raw.header.fields.filter (Fields.named (lit "Cookie")) = [(key, cookieText ps)])
    (h : ∀ p ∈ ps, Sendable p) (hvalues : ∀ p ∈ ps, p.2 ≠ [] ∧ byte '=' ∉ p.2) (name : Str) :
    cookieValue raw.header.fields name = (ps.find? fun p => p.1 = name).map Prod.snd := by
  have hhead : (ps.find? fun p => p.1 = name).map Prod.snd = (valuesNamed name ps).head? := by
    rw [valuesNamed, List.head?_map, List.head?_filter]
  rw [cookieValue_eq (find_cookie hone) h, hhead, find?_readable_eq_head?_iff]
  cases hnamed : valuesNamed name ps with
  | nil => trivial
  | cons value values =>
    have hmem : value ∈ valuesNamed name ps := hnamed ▸ List.mem_cons_self
    obtain ⟨p, hp, rfl⟩ := List.mem_map.mp hmem
    exact .inl (hvalues p (List.mem_of_mem_filter hp))

/-- **When the two readers agree**: if there is at most one cookie. -/
theorem agree_iff
    (hone : raw.header.fields.filter (Fields.named (lit "Cookie")) = [(key, cookieText ps)])
    (h : ∀ p ∈ ps, Sendable p) (hvalues : ∀ p ∈ ps, p.2 ≠ [] ∧ byte '=' ∉ p.2) :
    Agree raw ↔ ps.length ≤ 1 := by
  have hread := cookieValue_eq_first hone h hvalues
  have hcookies := cookies_ofRaw hone
  cases ps with
  | nil =>
    refine iff_of_true (fun name => ?_) (Nat.zero_le 1)
    have hempty : (ofRaw raw).cookies = ∅ := hcookies
    rw [hread, hasCookie_eq, hempty]
    exact ⟨rfl, fun value hv => by cases hv⟩
  | cons p ps =>
    rw [recordCookie_cookieText (h p List.mem_cons_self)] at hcookies
    constructor
    · intro hagree
      obtain ⟨-, hvalue⟩ := hagree p.1
      have hfirst : cookieValue raw.header.fields p.1 = some p.2 := by
        rw [hread]
        simp
      have hcookie := hvalue p.2 hfirst
      rw [cookie, hcookies, AList.lookup_insert, Option.getD_some] at hcookie
      -- the recorded value is the rest of the field
      by_contra hlen
      have hps : ps ≠ [] := by
        rintro rfl
        exact hlen (Nat.le_refl 1)
      rw [if_neg hps] at hcookie
      exact absurd (List.append_right_eq_self.mp hcookie) (by simp [lit])
    · intro hlen
      have hps : ps = [] := List.eq_nil_of_length_eq_zero (by simpa using hlen)
      subst hps
      rw [if_pos rfl, List.append_nil] at hcookies
      intro name
      rw [hread, hasCookie_eq, cookie, hcookies]
      by_cases hname : p.1 = name
      · subst hname
        rw [AList.lookup_insert]
        simp
      · rw [AList.lookup_insert_ne (Ne.symm hname)]
        simp [hname]

/-- The request with this `Cookie` field. -/
def withCookies (ps : List (Str × Str)) : Request where
  header := { method := .get, target := lit "/", fields := [(lit "Cookie", cookieText ps)] }
  body := []

theorem agree_iff_one : Agree (withCookies [(lit "a", lit "1")]) :=
  (agree_iff rfl (by decide) (by decide)).mpr (by decide)

/-- The value of the first cookie takes in the second one, which is not found. -/
theorem second_cookie_lost :
    (ofRaw (withCookies [(lit "a", lit "1"), (lit "b", lit "2")])).cookie (lit "a") =
        lit "1; b=2" ∧
      ¬ Agree (withCookies [(lit "a", lit "1"), (lit "b", lit "2")]) := by
  refine ⟨by decide +kernel, fun h => ?_⟩
  have hfound := (h (lit "b")).1
  revert hfound
  decide +kernel

end

end ReceivedRequest

end Http
end Malloy
