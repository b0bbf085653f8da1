import Malloy.Client.Controller
import Malloy.Core.Http.SetCookie

/-!
# URLs with a port (`core/http/url.hpp`, `core/websocket/url.hpp`)

`build_request` and `build_endpoint` take the scheme, the host, the port and the target out of a
parsed URL. Both read the port with `url.port_number()`, and take the default of the scheme where
that is 0.

* `ParsedUrl`: a `boost::urls::url` with the text of its port. What Boost.URL documents of
  `port_number()` is a field of it.
* `buildRequest`: `core/http/url.hpp`. `ParsedUrl.toUrl` is the URL as `build_endpoint` sees it.
* `port_kept_iff`: the port that a URL gives is used if and only if it is between 1 and 65535.
-/

namespace Malloy
namespace Client

open Http

/-- `boost::urls::scheme`, as far as the two functions distinguish it. -/
inductive UrlScheme where
  | http | https | ws | wss | other
  deriving DecidableEq

/-- What Boost.URL documents of `port_number()`: the port, or 0 if there is none or it does not fit.
No digits are the number 0. -/
def documentedPort : Option Str → Nat
  | some text => if readDigits text ≤ 65535 then readDigits text else 0
  | none => 0

/-- A parsed `boost::urls::url`. -/
structure ParsedUrl where
  schemeId : UrlScheme
  host : String
  /-- The text behind the colon of the authority, if it has one. -/
  port : Option Str
  port_digits : ∀ text ∈ port, text.all digit = true
  portNumber : UInt16
  portNumber_eq : portNumber.toNat = documentedPort port
  encodedTarget : String

/-- The bytes of a `std::string`. -/
def bytes (s : String) : Str := s.toUTF8.toList

/-- A `request<Body>` as a client makes it, less its body. -/
structure ClientRequest where
  header : RequestHeader
  port : UInt16
  useTls : Bool
  deriving DecidableEq

/-- The constructor `request(method, host, port, target)`, and `use_tls(useTls)`. -/
def ClientRequest.make (method : Method) (host : String) (port : UInt16) (target : String)
    (useTls : Bool) : ClientRequest where
  header :=
    { method, target := bytes target, version := 11
      fields := Fields.set [] (lit "Host") (bytes host) }
  port := port
  useTls := useTls

/-- `build_request(method, url)`. -/
def ParsedUrl.buildRequest (method : Method) (url : ParsedUrl) : Option ClientRequest :=
  let request (useTls : Bool) (defaultPort : UInt16) : ClientRequest :=
    .make method url.host (if url.portNumber = 0 then defaultPort else url.portNumber)
      (if url.encodedTarget = "" then "/" else url.encodedTarget) useTls
  match url.schemeId with
  | .http => some (request false 80)
  | .https => some (request true 443)
  | _ => none

/-- `build_request(method, url)` of a string. -/
def buildRequest (parseUri : String → Option ParsedUrl) (method : Method) (url : String) :
    Option ClientRequest :=
  (parseUri url).bind (ParsedUrl.buildRequest method)

/-- The URL as `build_endpoint` sees it. -/
def ParsedUrl.toUrl (url : ParsedUrl) : Url where
  schemeId := match url.schemeId with
    | .ws => .ws
    | .wss => .wss
    | _ => .other
  host := url.host
  portNumber := url.portNumber
  encodedTarget := url.encodedTarget

/-! ## The port -/

/-- The port that both functions fill in. -/
def UrlScheme.defaultPort : UrlScheme → UInt16
  | .http | .ws => 80
  | _ => 443

theorem UrlScheme.defaultPort_ne_zero (scheme : UrlScheme) : scheme.defaultPort ≠ 0 := by
  cases scheme <;> decide

namespace ParsedUrl

/-- The port of a result. -/
def usedPort (url : ParsedUrl) : UInt16 :=
  if url.portNumber = 0 then url.schemeId.defaultPort else url.portNumber

variable {url : ParsedUrl} {method : Method} {text : Str}

theorem buildRequest_port {req : ClientRequest} (h : url.buildRequest method = some req) :
    req.port = url.usedPort := by
  unfold buildRequest at h
  unfold usedPort
  cases hs : url.schemeId <;> simp only [hs] at h <;> cases h <;> rfl

theorem buildEndpoint_port {ep : Endpoint} (h : url.toUrl.buildEndpoint = some ep) :
    ep.port = url.usedPort := by
  unfold Url.buildEndpoint toUrl at h
  unfold usedPort
  cases hs : url.schemeId <;> simp only [hs] at h <;> cases h <;> rfl

/-- One of the two functions takes every URL with a scheme that is known. -/
theorem exists_result (method : Method) (h : url.schemeId ≠ .other) :
    (∃ req, url.buildRequest method = some req) ∨ ∃ ep, url.toUrl.buildEndpoint = some ep := by
  unfold buildRequest Url.buildEndpoint toUrl
  cases hs : url.schemeId with
  | http => exact .inl ⟨_, rfl⟩
  | https => exact .inl ⟨_, rfl⟩
  | ws => exact .inr ⟨_, rfl⟩
  | wss => exact .inr ⟨_, rfl⟩
  | other => exact absurd hs h

/-- The default of the scheme stands in for a port that is 0, or too large. -/
theorem usedPort_eq_iff (hport : url.port = some text) :
    url.usedPort.toNat = readDigits text ↔ 1 ≤ readDigits text ∧ readDigits text ≤ 65535 := by
  have hnum := url.portNumber_eq
  have hzero : url.portNumber = 0 ↔ url.portNumber.toNat = 0 :=
    ⟨fun h => by rw [h]; rfl, fun h => UInt16.toNat_inj.mp h⟩
  have hdefault : url.schemeId.defaultPort.toNat ≠ 0 := fun h =>
    url.schemeId.defaultPort_ne_zero (UInt16.toNat_inj.mp h)
  rw [hport, documentedPort] at hnum
  unfold usedPort
  constructor
  · intro h
    have hlt := (if url.portNumber = 0 then url.schemeId.defaultPort else url.portNumber).toNat_lt
    rw [h] at hlt
    rw [if_pos (by omega)] at hnum
    refine ⟨?_, by omega⟩
    by_contra hpos
    rw [if_pos (hzero.mpr (by omega))] at h
    omega
  · rintro ⟨hpos, hle⟩
    rw [if_pos hle] at hnum
    rw [if_neg (fun h => by have := hzero.mp h; omega), hnum]

/-- **When the port of a URL is kept.** Whatever the two functions return for a URL that gives a
port, with a scheme that one of them knows, has this port, if and only if it is between 1 and
65535. -/
theorem port_kept_iff (method : Method) (hport : url.port = some text)
    (hscheme : url.schemeId ≠ .other) :
    ((∀ req, url.buildRequest method = some req → req.port.toNat = readDigits text) ∧
      ∀ ep, url.toUrl.buildEndpoint = some ep → ep.port.toNat = readDigits text) ↔
    1 ≤ readDigits text ∧ readDigits text ≤ 65535 := by
  rw [← usedPort_eq_iff hport]
  constructor
  · rintro ⟨hreq, hep⟩
    rcases exists_result method hscheme with ⟨req, h⟩ | ⟨ep, h⟩
    · rw [← buildRequest_port h]
      exact hreq req h
    · rw [← buildEndpoint_port h]
      exact hep ep h
  · intro h
    refine ⟨fun req hreq => ?_, fun ep hep => ?_⟩
    · rw [buildRequest_port hreq, h]
    · rw [buildEndpoint_port hep, h]

/-- `https://localhost:4242/`. -/
def withPort : ParsedUrl where
  schemeId := .https
  host := "localhost"
  port := some (lit "4242")
  port_digits := by decide
  portNumber := 4242
  portNumber_eq := by decide
  encodedTarget := "/"

theorem port_kept_iff_withPort : withPort.port = some (lit "4242") ∧
    ∀ req, withPort.buildRequest .get = some req → req.port.toNat = 4242 := by
  have hport : withPort.port = some (lit "4242") := rfl
  exact ⟨hport, ((port_kept_iff .get hport (by decide)).mpr (by decide)).1⟩

/-- `http://localhost:65616/`: a port that does not fit. -/
def largePort : ParsedUrl where
  schemeId := .http
  host := "localhost"
  port := some (lit "65616")
  port_digits := by decide
  portNumber := 0
  portNumber_eq := by decide
  encodedTarget := "/"

/-- The request goes to port 80. -/
theorem large_port_replaced :
    ¬ ∀ (url : ParsedUrl) (text : Str) (method : Method), url.port = some text → text ≠ [] →
      url.schemeId ≠ .other →
      (∀ req, url.buildRequest method = some req → req.port.toNat = readDigits text) ∧
        ∀ ep, url.toUrl.buildEndpoint = some ep → ep.port.toNat = readDigits text := by
  intro h
  have hport := (h largePort (lit "65616") .get rfl (by decide) (by decide)).1
  exact absurd (hport _ rfl) (by decide)

end ParsedUrl

end Client
end Malloy
