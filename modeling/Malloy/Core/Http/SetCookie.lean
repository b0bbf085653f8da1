import Malloy.Core.Http.Cookie
import Malloy.Lib.Trim

/-!
# Reading a `Set-Cookie` field

What a client makes of `cookie::to_string`, by the rules of RFC 6265: the text is cut at each `;`,
each part is trimmed and cut at its first `=`, and names of attributes are compared without regard
to case.

* `SetCookie.read`: the reader. It is written from these rules, not from the source.
* `SetCookie.read_toStr`: what it reads. A path is written with quotation marks around it, which are
  read as part of it.
* `SetCookie.read_toStr_iff`: a cookie is read back exactly if it has no path.
-/

namespace Malloy
namespace Http

open Lib

/-! ## Integers -/

def digit (c : UInt8) : Bool := byte '0' ≤ c && c ≤ byte '9'

/-- The number that these digits denote. -/
def readDigits (s : Str) : Nat := s.foldl (fun n c => 10 * n + (c.toNat - 48)) 0

/-- Digits, or digits behind a `-`. -/
def readInteger : Str → Option Int
  | [] => none
  | c :: s =>
    if c = byte '-' then
      if s ≠ [] ∧ s.all digit = true then some (-(readDigits s : Int)) else none
    else if (c :: s).all digit = true then some (readDigits (c :: s) : Int) else none

theorem lit_append (s t : String) : lit (s ++ t) = lit s ++ lit t := by
  rw [lit, String.toList_append, List.map_append]
  rfl

theorem lit_repr (n : Nat) : lit n.repr = (Nat.toDigits 10 n).map fun c => c.val.toUInt8 := by
  rw [lit, Nat.toList_repr]

/-- The byte of a decimal digit. -/
theorem digit_of_isDigit {c : Char} (h : c.isDigit = true) :
    digit c.val.toUInt8 = true ∧ c.val.toUInt8.toNat = c.toNat := by
  obtain ⟨hlow, hhigh⟩ : 48 ≤ c.toNat ∧ c.toNat ≤ 57 := Char.isDigit_iff_toNat.mp h
  have hnat : c.val.toUInt8.toNat = c.toNat := by
    rw [UInt32.toNat_toUInt8]
    exact Nat.mod_eq_of_lt (show c.toNat < 256 by omega)
  refine ⟨?_, hnat⟩
  simp only [digit, Bool.and_eq_true, decide_eq_true_iff, UInt8.le_iff_toNat_le, hnat]
  exact ⟨hlow, hhigh⟩

theorem digits_repr (n : Nat) : (lit n.repr).all digit = true := by
  rw [lit_repr, List.all_map, List.all_eq_true]
  intro c hc
  exact (digit_of_isDigit (Nat.isDigit_of_mem_toDigits (by decide) (by decide) hc)).1

theorem readDigits_repr (n : Nat) : readDigits (lit n.repr) = n := by
  rw [readDigits, lit_repr, List.foldl_map]
  have hstep : ∀ acc, ∀ c ∈ Nat.toDigits 10 n,
      10 * acc + (c.val.toUInt8.toNat - 48) = 10 * acc + (c.toNat - '0'.toNat) := by
    intro acc c hc
    rw [(digit_of_isDigit (Nat.isDigit_of_mem_toDigits (by decide) (by decide) hc)).2]
    rfl
  rw [List.foldl_ext _ _ 0 hstep, ← Nat.ofDigitChars_eq_foldl, Nat.ofDigitChars_ten_toDigits]

theorem repr_ne_nil (n : Nat) : lit n.repr ≠ [] := by
  rw [lit_repr, Ne, List.map_eq_nil_iff]
  exact Nat.toDigits_ne_nil

theorem readInteger_digits {s : Str} (hne : s ≠ []) (hs : s.all digit = true) :
    readInteger s = some (readDigits s : Int) := by
  cases s with
  | nil => exact absurd rfl hne
  | cons c s =>
    have hc : c ≠ byte '-' := by
      rintro rfl
      rw [List.all_cons, Bool.and_eq_true] at hs
      exact absurd hs.1 (by decide)
    rw [readInteger, if_neg hc, if_pos hs]

theorem readInteger_minus {s : Str} (hne : s ≠ []) (hs : s.all digit = true) :
    readInteger (byte '-' :: s) = some (-(readDigits s : Int)) := by
  rw [readInteger, if_pos rfl, if_pos ⟨hne, hs⟩]

/-- The text of an integer. -/
theorem lit_toString (n : Int) : lit (toString n) =
    if 0 ≤ n then lit n.toNat.repr else byte '-' :: lit (-n).toNat.repr := by
  rw [Int.toString_eq_repr, Int.repr_eq_if]
  split
  · rfl
  · rw [lit_append]
    rfl

/-- **An integer is read back.** -/
theorem readInteger_toString (n : Int) : readInteger (lit (toString n)) = some n := by
  rw [lit_toString]
  split
  · rw [readInteger_digits (repr_ne_nil _) (digits_repr _), readDigits_repr]
    exact congrArg some (by omega)
  · rw [readInteger_minus (repr_ne_nil _) (digits_repr _), readDigits_repr]
    exact congrArg some (by omega)

theorem mem_toString {n : Int} {c : UInt8} (hc : c ∈ lit (toString n)) :
    digit c = true ∨ c = byte '-' := by
  rw [lit_toString] at hc
  split at hc
  · exact .inl (List.all_eq_true.mp (digits_repr _) c hc)
  · rcases List.mem_cons.mp hc with rfl | hc
    · exact .inr rfl
    · exact .inl (List.all_eq_true.mp (digits_repr _) c hc)

/-! ## The reader -/

def whitespace (c : UInt8) : Bool := c == byte ' ' || c == byte '\t'

/-- What a client reads of a `Set-Cookie` field: an attribute is there or not. -/
@[ext] structure SetCookie where
  name : Str
  value : Str
  expires : Option Str := none
  maxAge : Option Int := none
  domain : Option Str := none
  path : Option Str := none
  sameSite : Option SameSite := none
  secure : Bool := false
  httpOnly : Bool := false
  deriving DecidableEq

namespace SetCookie

/-- The policy of this name. -/
def readSameSite (value : Str) : Option SameSite :=
  if lowerStr value = lit "strict" then some .strict
  else if lowerStr value = lit "lax" then some .lax
  else if lowerStr value = lit "none" then some .none
  else none

/-- An attribute by its name in lower case. An unknown one is ignored. -/
def setAttribute (r : SetCookie) (name value : Str) : SetCookie :=
  if name = lit "expires" then { r with expires := some value }
  else if name = lit "max-age" then
    match readInteger value with
    | some n => { r with maxAge := some n }
    | none => r
  else if name = lit "domain" then
    if value = [] then r else { r with domain := some value }
  else if name = lit "path" then { r with path := some value }
  else if name = lit "samesite" then { r with sameSite := readSameSite value }
  else if name = lit "secure" then { r with secure := true }
  else if name = lit "httponly" then { r with httpOnly := true }
  else r

/-- A part of the field behind the first `;`. -/
def readAttribute (r : SetCookie) (part : Str) : SetCookie :=
  let (name, value) := cutFirst (byte '=') (trim whitespace part)
  setAttribute r (lowerStr (trim whitespace name)) (trim whitespace value)

/-- The cookie of a `Set-Cookie` field. The field is ignored if its first part has no `=` or no
name. -/
def read (field : Str) : Option SetCookie :=
  match pieces (lit ";") field with
  | [] => none
  | part :: parts =>
    let (name, value) := cutFirst (byte '=') (trim whitespace part)
    if byte '=' ∉ part ∨ trim whitespace name = [] then none
    else some (parts.foldl readAttribute
      { name := trim whitespace name, value := trim whitespace value })

/-- What is to be read of a cookie. -/
def ofCookie (c : Cookie) : SetCookie where
  name := c.name
  value := c.value
  expires := if c.expires ≠ [] then some c.expires else none
  maxAge := if c.maxAge ≠ 0 then some c.maxAge else none
  domain := if c.domain ≠ [] then some c.domain else none
  path := if c.path ≠ [] then some c.path else none
  sameSite := some c.sameSite
  secure := c.secure || c.sameSite == .none
  httpOnly := c.httpOnly

/-! ## What is read of a cookie -/

/-- A text that a `Set-Cookie` field can hold. -/
def Holdable (s : Str) : Prop := byte ';' ∉ s ∧ Bare whitespace s

instance (s : Str) : Decidable (Holdable s) := inferInstanceAs (Decidable (_ ∧ _))

/-- Every text of the cookie can be written into the field. -/
structure Writable (c : Cookie) : Prop where
  name_ne : c.name ≠ []
  name_eq : byte '=' ∉ c.name
  name : Holdable c.name
  value : Holdable c.value
  expires : Holdable c.expires
  domain : Holdable c.domain
  path : Holdable c.path

/-- The parts of the field behind the first one. -/
def parts (c : Cookie) : List Str :=
  (if c.expires ≠ [] then [lit "Expires=" ++ c.expires] else [])
    ++ ((if c.maxAge ≠ 0 then [lit "Max-Age=" ++ lit (toString c.maxAge)] else [])
    ++ ((if c.domain ≠ [] then [lit "Domain=" ++ c.domain] else [])
    ++ ((if c.path ≠ [] then [lit "Path=" ++ quoted c.path] else [])
    ++ ([lit "SameSite=" ++
        (match c.sameSite with
        | .strict => lit "Strict"
        | .lax => lit "Lax"
        | .none => lit "None")]
    ++ ((if c.secure = true ∨ c.sameSite = .none then [lit "Secure"] else [])
    ++ (if c.httpOnly = true then [lit "HttpOnly"] else []))))))

section

variable {c : Cookie} {r : SetCookie} {s n v : Str}

theorem flatMap_ite {p : Prop} [Decidable p] (f : Str → Str) (x : Str) :
    (if p then [x] else []).flatMap f = if p then f x else [] := by
  split
  · rw [List.flatMap_singleton]
  · rfl

/-- Each part is terminated by a `;`. -/
theorem toStr_eq (c : Cookie) :
    c.toStr = ((c.name ++ byte '=' :: c.value) :: parts c).flatMap (· ++ [byte ';']) := by
  unfold Cookie.toStr parts
  simp only [List.flatMap_cons, List.flatMap_append, flatMap_ite, List.flatMap_nil,
    List.append_assoc, List.append_nil]
  rfl

/-- A name and a value without white space at their ends. -/
theorem bare_pair (hn : Bare whitespace n) (hne : n ≠ []) (hv : Bare whitespace v) :
    Bare whitespace (n ++ byte '=' :: v) := by
  refine .append hn.1 hne ?_ (List.cons_ne_nil _ _)
  intro c hc
  cases v with
  | nil =>
    cases hc
    rfl
  | cons d v => exact hv.2 c (by simpa using hc)

/-- An attribute with a value. -/
theorem readAttribute_pair (hn : byte '=' ∉ n) (hne : n ≠ []) (hn' : Bare whitespace n)
    (hv : Bare whitespace v) (r : SetCookie) :
    readAttribute r (n ++ byte '=' :: v) = setAttribute r (lowerStr n) v := by
  rw [readAttribute, trim_eq_self (bare_pair hn' hne hv), cutFirst_append hn]
  dsimp only
  rw [trim_eq_self hn', trim_eq_self hv]

theorem readAttribute_expires (hv : Bare whitespace v) (r : SetCookie) :
    readAttribute r (lit "Expires=" ++ v) = { r with expires := some v } :=
  readAttribute_pair (n := lit "Expires") (by decide) (by decide) (by decide) hv r

theorem bare_toString (n : Int) : Bare whitespace (lit (toString n)) := by
  have hdigit : ∀ c : UInt8, digit c = true ∨ c = byte '-' → whitespace c = false :=
    forall_byte (P := fun c => digit c = true ∨ c = byte '-' → whitespace c = false)
      (by decide +kernel)
  exact bare_of_forall fun c hc => hdigit c (mem_toString hc)

theorem readAttribute_maxAge (n : Int) (r : SetCookie) :
    readAttribute r (lit "Max-Age=" ++ lit (toString n)) = { r with maxAge := some n } := by
  have hread : setAttribute r (lit "max-age") (lit (toString n)) = { r with maxAge := some n } := by
    rw [setAttribute, if_neg (by decide), if_pos rfl, readInteger_toString]
  rw [← hread]
  exact readAttribute_pair (n := lit "Max-Age") (by decide) (by decide) (by decide)
    (bare_toString n) r

theorem readAttribute_domain (hne : v ≠ []) (hv : Bare whitespace v) (r : SetCookie) :
    readAttribute r (lit "Domain=" ++ v) = { r with domain := some v } := by
  have hread : setAttribute r (lit "domain") v = { r with domain := some v } := by
    rw [setAttribute, if_neg (by decide), if_neg (by decide), if_pos rfl, if_neg hne]
  rw [← hread]
  exact readAttribute_pair (n := lit "Domain") (by decide) (by decide) (by decide) hv r

theorem readAttribute_path (hv : Bare whitespace v) (r : SetCookie) :
    readAttribute r (lit "Path=" ++ v) = { r with path := some v } :=
  readAttribute_pair (n := lit "Path") (by decide) (by decide) (by decide) hv r

theorem bare_quoted (s : Str) : Bare whitespace (quoted s) := by
  rw [quoted, List.append_assoc]
  refine .append (fun c hc => ?_) (List.cons_ne_nil _ _) (fun c hc => ?_) (by simp)
  · cases hc
    rfl
  · rw [List.getLast?_concat] at hc
    cases hc
    rfl

theorem readAttribute_sameSite (p : SameSite) (r : SetCookie) :
    readAttribute r (lit "SameSite=" ++
      (match p with
      | .strict => lit "Strict"
      | .lax => lit "Lax"
      | .none => lit "None")) = { r with sameSite := some p } := by
  cases p with
  | strict =>
    exact readAttribute_pair (n := lit "SameSite") (v := lit "Strict") (by decide) (by decide)
      (by decide) (by decide) r
  | lax =>
    exact readAttribute_pair (n := lit "SameSite") (v := lit "Lax") (by decide) (by decide)
      (by decide) (by decide) r
  | none =>
    exact readAttribute_pair (n := lit "SameSite") (v := lit "None") (by decide) (by decide)
      (by decide) (by decide) r

theorem readAttribute_secure (r : SetCookie) :
    readAttribute r (lit "Secure") = { r with secure := true } := rfl

theorem readAttribute_httpOnly (r : SetCookie) :
    readAttribute r (lit "HttpOnly") = { r with httpOnly := true } := rfl

theorem foldl_ite {p : Prop} [Decidable p] (x : Str) (r : SetCookie) :
    (if p then [x] else []).foldl readAttribute r = if p then readAttribute r x else r := by
  split <;> rfl

/-- **The attributes that are read.** -/
theorem foldl_parts (h : Writable c) (name value : Str) :
    (parts c).foldl readAttribute { name := name, value := value } =
      { ofCookie c with
        name := name
        value := value
        path := if c.path ≠ [] then some (quoted c.path) else none } := by
  have hdomain : ∀ r : SetCookie, (if c.domain ≠ [] then readAttribute r (lit "Domain=" ++ c.domain)
      else r) = { r with domain := if c.domain ≠ [] then some c.domain else r.domain } := by
    intro r
    split
    · rename_i hne
      exact readAttribute_domain hne h.domain.2 r
    · rfl
  unfold parts ofCookie
  simp only [List.foldl_append, foldl_ite, List.foldl_cons, List.foldl_nil, hdomain,
    readAttribute_expires h.expires.2, readAttribute_maxAge, readAttribute_path (bare_quoted _),
    readAttribute_sameSite, readAttribute_secure, readAttribute_httpOnly]
  ext1 <;> simp only [apply_ite SetCookie.name, apply_ite SetCookie.value,
    apply_ite SetCookie.expires, apply_ite SetCookie.maxAge, apply_ite SetCookie.domain,
    apply_ite SetCookie.path, apply_ite SetCookie.sameSite, apply_ite SetCookie.secure,
    apply_ite SetCookie.httpOnly, ite_self]
  · rw [Bool.eq_iff_iff]
    simp
  · simp

/-! ## Reading back -/

theorem semi_not_mem_quoted (h : byte ';' ∉ s) : byte ';' ∉ quoted s := by
  unfold quoted
  simp only [List.mem_append, List.mem_flatMap, not_or, not_exists, not_and]
  refine ⟨⟨by decide, fun c hc => ?_⟩, by decide⟩
  have hne : byte ';' ≠ c := by
    rintro rfl
    exact h hc
  split
  · simpa using ⟨by decide, hne⟩
  · simpa using hne

theorem semi_not_mem_toString (n : Int) : byte ';' ∉ lit (toString n) := fun hm =>
  absurd (mem_toString hm) (by decide)

/-- No part has a `;` in it. -/
theorem semi_not_mem_parts (h : Writable c) : ∀ part ∈ parts c, byte ';' ∉ part := by
  have hite : ∀ (p : Prop) [Decidable p] (x : Str), byte ';' ∉ x →
      ∀ part ∈ (if p then [x] else []), byte ';' ∉ part := by
    intro p _ x hx part hpart
    split at hpart
    · rwa [List.mem_singleton.mp hpart]
    · cases hpart
  have happend : ∀ x y : Str, byte ';' ∉ x → byte ';' ∉ y → byte ';' ∉ x ++ y := fun x y hx hy hm =>
    (List.mem_append.mp hm).elim hx hy
  intro part hpart
  unfold parts at hpart
  simp only [List.mem_append] at hpart
  rcases hpart with hp | hp | hp | hp | hp | hp | hp
  · exact hite _ _ (happend _ _ (by decide) h.expires.1) part hp
  · exact hite _ _ (happend _ _ (by decide) (semi_not_mem_toString _)) part hp
  · exact hite _ _ (happend _ _ (by decide) h.domain.1) part hp
  · exact hite _ _ (happend _ _ (by decide) (semi_not_mem_quoted h.path.1)) part hp
  · rw [List.mem_singleton.mp hp]
    cases c.sameSite <;> decide
  · exact hite _ _ (by decide) part hp
  · exact hite _ _ (by decide) part hp

/-- **What a client reads.** -/
theorem read_toStr (h : Writable c) : read c.toStr =
    some { ofCookie c with path := if c.path ≠ [] then some (quoted c.path) else none } := by
  have hpair : byte ';' ∉ c.name ++ byte '=' :: c.value := by
    simp only [List.mem_append, List.mem_cons, not_or]
    exact ⟨h.name.1, by decide, h.value.1⟩
  have hpieces : pieces (lit ";") c.toStr =
      (c.name ++ byte '=' :: c.value) :: (parts c ++ [[]]) := by
    rw [toStr_eq]
    exact pieces_terminated (List.forall_mem_cons.mpr ⟨hpair, semi_not_mem_parts h⟩)
  have hlast : ∀ r, readAttribute r [] = r := fun _ => rfl
  rw [read, hpieces]
  dsimp only
  rw [trim_eq_self (bare_pair h.name.2 h.name_ne h.value.2), cutFirst_append h.name_eq]
  dsimp only
  rw [trim_eq_self h.name.2, trim_eq_self h.value.2, if_neg (by simp [h.name_ne]),
    List.foldl_append, foldl_parts h, List.foldl_cons, hlast]
  rfl

/-- Quotation marks were added. -/
theorem quoted_ne (s : Str) : quoted s ≠ s := by
  intro he
  have hlen := congrArg List.length he
  have hle : s.length ≤ (s.flatMap fun b =>
      if b = byte '"' ∨ b = byte '\\' then [byte '\\', b] else [b]).length := by
    clear he hlen
    induction s with
    | nil => exact Nat.le_refl 0
    | cons c s ih =>
      rw [List.flatMap_cons, List.length_append, List.length_cons]
      have hone : 1 ≤ (if c = byte '"' ∨ c = byte '\\' then [byte '\\', c] else [c]).length := by
        split <;> simp
      omega
  rw [quoted, List.length_append, List.length_append] at hlen
  simp only [List.length_cons, List.length_nil] at hlen
  omega

/-- **When a cookie is read back**: exactly if it has no path. -/
theorem read_toStr_iff (h : Writable c) : read c.toStr = some (ofCookie c) ↔ c.path = [] := by
  rw [read_toStr h, Option.some.injEq]
  constructor
  · intro he
    by_contra hpath
    have := congrArg SetCookie.path he
    simp only [ofCookie, if_pos hpath, Option.some.injEq] at this
    exact quoted_ne c.path this
  · intro hpath
    simp [ofCookie, hpath]

end

/-- A cookie with every attribute but a path. -/
def preferences : Cookie where
  name := lit "lang"
  value := lit "de=AT"
  maxAge := -3600
  expires := lit "Thu, 01 Jan 1970 00:00:00 GMT"
  domain := lit "example.org"
  secure := false
  sameSite := .none

theorem read_toStr_iff_preferences : read preferences.toStr = some (ofCookie preferences) :=
  (read_toStr_iff ⟨by decide, by decide, by decide, by decide, by decide, by decide,
    by decide⟩).mpr rfl

/-- A cookie for a whole site. -/
def rooted : Cookie where
  name := lit "id"
  value := lit "1"
  path := lit "/"

/-- The path `/` is read as three characters. -/
theorem path_read_quoted :
    Writable rooted ∧ (read rooted.toStr).map path = some (some (lit "\"/\"")) ∧
      read rooted.toStr ≠ some (ofCookie rooted) :=
  ⟨⟨by decide, by decide, by decide, by decide, by decide, by decide, by decide⟩,
    by decide +kernel, by decide +kernel⟩

end SetCookie

end Http
end Malloy
