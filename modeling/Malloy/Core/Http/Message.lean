import Malloy.Core.Utils

/-!
# HTTP messages (`core/http/request.hpp`, `response.hpp`, `utils.hpp`)

The message types of the library are those of Beast: a header is a start line and a list of
fields in the order in which they are sent, looked up by name without regard to case.

* `Method`: `boost::beast::http::verb`, with the text that `to_string` gives.
* `Fields`: `find` is the first field of that name; `set` removes every field of that name and
  appends the new one.
* `RequestHeader`, `Request`, `Response`: the parts that the library reads and writes. A status is
  its number, a version is Beast's (`11` for HTTP/1.1).
* `resourceString`, `chopResource`, `hasField`, `splitHeaderValue`: the functions of
  `core/http/utils.hpp`.
-/

namespace Malloy
namespace Http

/-! ## Methods -/

inductive Method where
  | unknown
  | delete | get | head | post | put | connect | options | trace
  | copy | lock | mkcol | move | propfind | proppatch | search | unlock
  | bind | rebind | unbind | acl
  | report | mkactivity | checkout | merge
  | msearch | notify | subscribe | unsubscribe
  | patch | purge | mkcalendar | link | unlink
  deriving DecidableEq

/-- `boost::beast::http::to_string(verb)`. -/
def Method.toStr : Method → Str
  | unknown => lit "<unknown>"
  | delete => lit "DELETE"
  | get => lit "GET"
  | head => lit "HEAD"
  | post => lit "POST"
  | put => lit "PUT"
  | connect => lit "CONNECT"
  | options => lit "OPTIONS"
  | trace => lit "TRACE"
  | copy => lit "COPY"
  | lock => lit "LOCK"
  | mkcol => lit "MKCOL"
  | move => lit "MOVE"
  | propfind => lit "PROPFIND"
  | proppatch => lit "PROPPATCH"
  | search => lit "SEARCH"
  | unlock => lit "UNLOCK"
  | bind => lit "BIND"
  | rebind => lit "REBIND"
  | unbind => lit "UNBIND"
  | acl => lit "ACL"
  | report => lit "REPORT"
  | mkactivity => lit "MKACTIVITY"
  | checkout => lit "CHECKOUT"
  | merge => lit "MERGE"
  | msearch => lit "M-SEARCH"
  | notify => lit "NOTIFY"
  | subscribe => lit "SUBSCRIBE"
  | unsubscribe => lit "UNSUBSCRIBE"
  | patch => lit "PATCH"
  | purge => lit "PURGE"
  | mkcalendar => lit "MKCALENDAR"
  | link => lit "LINK"
  | unlink => lit "UNLINK"

theorem Method.toStr_ne_nil (m : Method) : m.toStr ≠ [] := by
  cases m <;> decide

/-! ## Fields -/

/-- ASCII lower case, as `beast::iequals` compares. -/
def lowerByte (b : UInt8) : UInt8 := if 65 ≤ b ∧ b ≤ 90 then b + 32 else b

def lowerStr (s : Str) : Str := s.map lowerByte

abbrev Fields := List (Str × Str)

namespace Fields

/-- The field has this name. -/
def named (name : Str) (f : Str × Str) : Bool := lowerStr f.1 == lowerStr name

/-- The value of the first field of this name. -/
def find (fs : Fields) (name : Str) : Option Str := (List.find? (named name) fs).map (·.2)

/-- `at(name)`: it throws if there is no such field. -/
def at' (fs : Fields) (name : Str) : Except Exn Str :=
  match fs.find name with
  | some value => .ok value
  | none => .error .outOfRange

def set (fs : Fields) (name value : Str) : Fields :=
  fs.filter (fun f => !named name f) ++ [(name, value)]

theorem find_set_self (fs : Fields) (name value : Str) :
    (fs.set name value).find name = some value := by
  unfold set find
  have hnone : (fs.filter fun f => !named name f).find? (named name) = none := by
    rw [List.find?_eq_none]
    intro f hf
    simpa using (List.mem_filter.mp hf).2
  rw [List.find?_append, hnone]
  simp [named]

theorem find_set_of_ne (fs : Fields) {name name' : Str} (value : Str)
    (h : lowerStr name' ≠ lowerStr name) : (fs.set name value).find name' = fs.find name' := by
  unfold set find
  have hother : named name' (name, value) = false := by
    simpa [named] using h.symm
  rw [List.find?_append, List.find?_cons_of_neg (by simp [hother]), List.find?_nil, Option.or_none,
    List.find?_filter]
  congr 2
  funext f
  by_cases hf : named name' f = true
  · have hne : named name f = false := by
      simp only [named, beq_iff_eq] at hf
      simpa [named, hf] using h
    simp [hf, hne]
  · simp [hf]

end Fields

/-! ## Messages -/

/-- `boost::beast::http::request_header<>`. -/
structure RequestHeader where
  method : Method
  target : Str
  version : Nat := 11
  fields : Fields := []
  deriving DecidableEq

/-- A request with a string body. -/
structure Request where
  header : RequestHeader
  body : Str
  deriving DecidableEq

/-- The body of a response: `string_body`, the opened file of a `file_body`, or a body of
another type by the bytes that it serialises to. -/
inductive Body where
  | string (s : Str)
  | file (path : Str)
  | other (bytes : Str)
  deriving DecidableEq

/-- `response<Body>`; a default response is a 200. -/
structure Response where
  status : Nat := 200
  version : Nat := 11
  fields : Fields := []
  body : Body := .string []
  deriving DecidableEq

/-- `resp.set(name, value)`. -/
def Response.set (resp : Response) (name value : Str) : Response :=
  { resp with fields := resp.fields.set name value }

/-- A response of this status has no body: an informational one, 204 and 304. -/
def Response.bodiless (resp : Response) : Bool :=
  resp.status / 100 == 1 || resp.status == 204 || resp.status == 304

/-! ## `core/http/utils.hpp` -/

/-- A byte that ends the resource part of a target: one of `?#`. -/
def endsResource (b : UInt8) : Bool := b == byte '?' || b == byte '#'

/-- `target.substr(0, target.find_first_of("?#"))`. -/
def resourceString (target : Str) : Str := target.takeWhile fun b => !endsResource b

/-- The header with the first `resource.size()` bytes of its target removed. -/
def chopResource (head : RequestHeader) (resource : Str) : Except Exn RequestHeader := do
  return { head with target := ← head.target.substr resource.length }

/-- `has_field(head, name)`. -/
def hasField (fields : Fields) (name : Str) : Bool := (fields.find name).isSome

def splitHeaderValue (fieldValue : Str) : List Str := split fieldValue (lit "; ")

theorem resourceString_prefix_target (t : Str) : resourceString t <+: t := List.takeWhile_prefix _

/-- A target that neither contains `?` nor `#` is its resource string, and a query or a fragment
that follows it does not change that. -/
theorem resourceString_append {t q : Str} (ht : ∀ b ∈ t, endsResource b = false)
    (hq : ∀ b ∈ q.head?, endsResource b = true) : resourceString (t ++ q) = t := by
  have hq0 : q.takeWhile (fun b => !endsResource b) = [] := by
    cases q with
    | nil => rfl
    | cons b q => simp [hq b rfl]
  unfold resourceString
  rw [List.takeWhile_append_of_pos (by simpa using ht), hq0, List.append_nil]

theorem resourceString_eq {t : Str} (ht : ∀ b ∈ t, endsResource b = false) :
    resourceString t = t := by
  simpa using resourceString_append (q := []) ht (by simp)

/-- Chopping a resource that the resource string starts with does not reach the query. -/
theorem chopResource_of_startsWith {head : RequestHeader} {resource : Str}
    (h : (resourceString head.target).startsWith resource = true) :
    chopResource head resource = .ok { head with target := head.target.drop resource.length } := by
  have hp : head.target.startsWith resource = true :=
    Str.startsWith_iff.mpr ((Str.startsWith_iff.mp h).trans (resourceString_prefix_target _))
  simp [chopResource, Str.substr_of_startsWith hp, bind, Except.bind, pure, Except.pure]

end Http
end Malloy
