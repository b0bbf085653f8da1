import Mathlib.Data.List.DropRight
import Malloy.Core.Http.Message

/-!
# Cookies (`core/http/cookie.hpp`, `cookie.cpp`, `utils.hpp`)

`Cookie.toStr` writes the value of a `Set-Cookie` field, `cookieValue` reads a `Cookie` field.
`cookieValue_joined` is what a client gets back that sends the pairs of its cookies joined with
`"; "`: the value of the first pair of that name.
-/

namespace Malloy
namespace Http

open Lib

/-! ## `Set-Cookie` -/

inductive SameSite where
  | strict | lax | none
  deriving DecidableEq

structure Cookie where
  name : Str
  value : Str
  maxAge : Int := 0
  expires : Str := []
  domain : Str := []
  path : Str := []
  secure : Bool := true
  httpOnly : Bool := true
  sameSite : SameSite := .strict
  deriving DecidableEq

/-- A path as a stream writes it: `std::quoted(path.string())`. -/
def quoted (s : Str) : Str :=
  [byte '"'] ++ s.flatMap (fun b => if b = byte '"' ∨ b = byte '\\' then [byte '\\', b] else [b])
    ++ [byte '"']

namespace Cookie

def toStr (c : Cookie) : Str :=
  c.name ++ lit "=" ++ c.value ++ lit ";"
    ++ (if c.expires ≠ [] then lit "Expires=" ++ c.expires ++ lit ";" else [])
    ++ (if c.maxAge ≠ 0 then lit "Max-Age=" ++ lit (toString c.maxAge) ++ lit ";" else [])
    ++ (if c.domain ≠ [] then lit "Domain=" ++ c.domain ++ lit ";" else [])
    ++ (if c.path ≠ [] then lit "Path=" ++ quoted c.path ++ lit ";" else [])
    ++ lit "SameSite="
    ++ (match c.sameSite with
      | .strict => lit "Strict"
      | .lax => lit "Lax"
      | .none => lit "None")
    ++ lit ";"
    ++ (if c.secure = true ∨ c.sameSite = .none then lit "Secure;" else [])
    ++ (if c.httpOnly = true then lit "HttpOnly;" else [])

/-- `cookie_clear`. -/
def clear (name : Str) : Cookie where
  name := name
  value := []
  expires := lit "Thu, 01 Jan 1970 00:00:00 GMT"

/-- The text up to the first `;` is the pair, if the pair has none. -/
theorem takeWhile_toStr (c : Cookie) (hn : byte ';' ∉ c.name) (hv : byte ';' ∉ c.value) :
    c.toStr.takeWhile (· != byte ';') = c.name ++ lit "=" ++ c.value := by
  have hpair : ∀ b ∈ c.name ++ lit "=" ++ c.value, (b != byte ';') = true := by
    intro b hb
    rw [bne_iff_ne]
    rintro rfl
    rcases List.mem_append.mp hb with hb | hb
    · rcases List.mem_append.mp hb with hb | hb
      · exact hn hb
      · revert hb
        decide
    · exact hv hb
  have hend : ∀ r : Str, (lit ";" ++ r).takeWhile (· != byte ';') = [] := fun _ => rfl
  unfold toStr
  simp only [List.append_assoc]
  rw [← List.append_assoc c.name, ← List.append_assoc, List.takeWhile_append_of_pos hpair, hend,
    List.append_nil, List.append_assoc]

end Cookie

/-- `fields.insert(name, value)`: after the last field of that name, or at the end. -/
def Fields.insert (fs : Fields) (name value : Str) : Fields :=
  if fs.any (Fields.named name) then
    fs.rdropWhile (fun f => !Fields.named name f)
      ++ (name, value) :: fs.rtakeWhile (fun f => !Fields.named name f)
  else fs ++ [(name, value)]

/-- `resp.add_cookie(c)`. -/
def Response.addCookie (resp : Response) (c : Cookie) : Response :=
  { resp with fields := resp.fields.insert (lit "Set-Cookie") c.toStr }

/-! ## `Cookie` -/

/-- The value of a pair `name=value` of this name. -/
def pairValue (cookieName pair : Str) : Option Str :=
  match split pair (lit "=") with
  | [name, value] => if name = cookieName then some value else none
  | _ => none

/-- `cookie_value(header, cookie_name)`. -/
def cookieValue (fields : Fields) (cookieName : Str) : Option Str :=
  match fields.find (lit "Cookie") with
  | none => none
  | some value => (splitHeaderValue value).findSome? (pairValue cookieName)

/-- The text of a cookie in a `Cookie` field. -/
def pairText (p : Str × Str) : Str := p.1 ++ lit "=" ++ p.2

/-- The cookies of a `Cookie` field, in order. -/
def cookieText (ps : List (Str × Str)) : Str := (lit "; ").intercalate (ps.map pairText)

/-- A cookie as a client sends it: a name, and neither part can be taken for a separator. -/
structure Sendable (p : Str × Str) : Prop where
  name_ne : p.1 ≠ []
  name_eq : byte '=' ∉ p.1
  name_semi : byte ';' ∉ p.1
  value_semi : byte ';' ∉ p.2

namespace Sendable

variable {p : Str × Str}

theorem pairText_ne_nil : pairText p ≠ [] := by
  unfold pairText
  rw [List.append_assoc]
  exact List.append_ne_nil_of_right_ne_nil _ (List.cons_ne_nil _ _)

theorem semi_not_mem (h : Sendable p) : byte ';' ∉ pairText p := by
  unfold pairText
  intro hm
  rcases List.mem_append.mp hm with hm | hm
  · rcases List.mem_append.mp hm with hm | hm
    · exact h.name_semi hm
    · revert hm
      decide
  · exact h.value_semi hm

theorem not_infix (h : Sendable p) : ¬ lit "; " <:+: pairText p := by
  intro hi
  apply h.semi_not_mem
  exact hi.subset List.mem_cons_self

/-- The name is the first part of the pair. -/
theorem split_pairText (h : Sendable p) :
    split (pairText p) (lit "=") =
      if p.2 = [] then [p.1] else p.1 :: dropTrailing (pieces (lit "=") p.2) :=
  split_append_singleton h.name_eq h.name_ne p.2

theorem pairValue_of_ne (h : Sendable p) {name : Str} (hne : p.1 ≠ name) :
    pairValue name (pairText p) = none := by
  unfold pairValue
  rw [h.split_pairText]
  split
  · rename_i n v hs
    split at hs
    · cases hs
    · rw [← (List.cons.inj hs).1, if_neg hne]
  · rfl

theorem pairValue_eq (h : Sendable p) (hv : p.2 ≠ []) (heq : byte '=' ∉ p.2) :
    pairValue p.1 (pairText p) = some p.2 := by
  have hv' : ¬ lit "=" <:+: p.2 := fun hi => heq (hi.subset List.mem_cons_self)
  unfold pairValue
  rw [h.split_pairText, if_neg hv, dropTrailing_pieces hv']
  exact if_pos rfl

end Sendable

/-- The pairs of a `Cookie` field are read as they were sent. -/
theorem splitHeaderValue_cookieText {ps : List (Str × Str)} (hne : ps ≠ [])
    (h : ∀ p ∈ ps, Sendable p) : splitHeaderValue (cookieText ps) = ps.map pairText := by
  have hd : lit "; " ≠ [] := List.cons_ne_nil _ _
  have hpieces : pieces (lit "; ") (cookieText ps) = ps.map pairText := by
    induction ps with
    | nil => exact absurd rfl hne
    | cons p ps ih =>
      obtain ⟨hp, hps⟩ := List.forall_mem_cons.mp h
      cases ps with
      | nil =>
        have hone : cookieText [p] = pairText p := List.intercalate_singleton
        rw [hone]
        exact pieces_eq_singleton hp.not_infix
      | cons q ps =>
        have hcons : cookieText (p :: q :: ps) =
            pairText p ++ lit "; " ++ cookieText (q :: ps) := by
          exact List.intercalate_cons_of_ne_nil (List.cons_ne_nil _ _)
        rw [hcons, List.map_cons, ← ih (List.cons_ne_nil _ _) hps]
        exact pieces_pair_append (by decide) hp.not_infix _
  have hnil : [] ∉ ps.map pairText := by
    intro hm
    obtain ⟨p, -, hp⟩ := List.mem_map.mp hm
    exact Sendable.pairText_ne_nil hp
  have htext : cookieText ps ≠ [] := by
    intro h0
    rw [h0, pieces_eq_singleton (by decide)] at hpieces
    rw [← hpieces] at hnil
    exact hnil List.mem_cons_self
  unfold splitHeaderValue
  rw [split_eq htext hd, hpieces, dropLeading_of_not_mem hnil, dropTrailing_of_not_mem hnil]

/-- **A cookie is read back**, whatever its neighbours are. -/
theorem cookieValue_joined {fields : Fields} {ps : List (Str × Str)} {name value : Str}
    (hf : fields.find (lit "Cookie") = some (cookieText ps)) (h : ∀ p ∈ ps, Sendable p)
    (hv : value ≠ []) (heq : byte '=' ∉ value) (hmem : (name, value) ∈ ps)
    (honly : ∀ p ∈ ps, p.1 = name → p.2 = value) : cookieValue fields name = some value := by
  have hread : ∀ p ∈ ps, pairValue name (pairText p) = if p.1 = name then some value else none := by
    intro p hp
    split
    · rename_i hn
      have hpv := honly p hp hn
      subst hn hpv
      exact (h p hp).pairValue_eq hv heq
    · rename_i hn
      exact (h p hp).pairValue_of_ne hn
  unfold cookieValue
  rw [hf]
  show (splitHeaderValue (cookieText ps)).findSome? (pairValue name) = some value
  rw [splitHeaderValue_cookieText (List.ne_nil_of_mem hmem) h, List.findSome?_map]
  cases hfind : ps.findSome? (pairValue name ∘ pairText) with
  | none =>
    have := List.findSome?_eq_none_iff.mp hfind (name, value) hmem
    rw [Function.comp_apply, hread _ hmem, if_pos rfl] at this
    cases this
  | some v =>
    obtain ⟨p, hp, hpv⟩ := List.exists_of_findSome?_eq_some hfind
    rw [Function.comp_apply, hread p hp] at hpv
    split at hpv
    · exact hpv.symm
    · cases hpv

end Http
end Malloy
