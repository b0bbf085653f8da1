import Malloy.Core.Html.Multipart

/-!
# `malloy::html::form` (`core/html/form.cpp`): parsing a submission

`form::parse` chooses a decoder by the Content-Type. The decoders cut the body with
`malloy::split`; that of multipart submissions also cuts the disposition of each part, without
regard to its quotation marks.

* `urlDecode` (`core/utils.hpp`) decodes in place. It may read behind the end of the string, which
  is `Exn.outOfBounds`.
* `Form.parse` and its three decoders. `catchStd` is their `catch (const std::exception&)`.
-/

namespace Malloy

/-! ## `url_decode` -/

def hex2dec (c : UInt8) : UInt8 :=
  if byte '0' ≤ c ∧ c ≤ byte '9' then c - byte '0'
  else if byte 'a' ≤ c ∧ c ≤ byte 'f' then c - (byte 'a' - 10)
  else if byte 'A' ≤ c ∧ c ≤ byte 'F' then c - (byte 'A' - 10)
  else c

/-- `str[i]`; at the size of the string it is the terminating zero. -/
def charAt (str : Str) (i : Nat) : Except Exn UInt8 :=
  if i = str.length then .ok 0
  else
    match str[i]? with
    | some c => .ok c
    | none => .error .outOfBounds

/-- The loop of `url_decode`, with the read and the write position. Each round moves `r`, so
`fuel = str.size() + 1` rounds are enough. -/
def urlDecodeLoop : Nat → Str → Nat → Nat → Except Exn Str
  | 0, str, _, w => .ok (str.take w)
  | fuel + 1, str, r, w =>
    match str[r]? with
    | none => .ok (str.take w)
    | some v =>
      if v = byte '%' then do
        let high := hex2dec (← charAt str (r + 1)) <<< 4
        let v := high ||| hex2dec (← charAt str (r + 2))
        urlDecodeLoop fuel (str.set w v) (r + 3) (w + 1)
      else urlDecodeLoop fuel (str.set w v) (r + 1) (w + 1)

def urlDecode (str : Str) : Except Exn Str := urlDecodeLoop (str.length + 1) str 0 0

namespace Html

open Http Lib

/-! ## The decoders -/

/-- `form::encoding`. -/
inductive Encoding where
  | url | multipart | plain
  deriving DecidableEq

/-- `form_field_data`. -/
structure FormFieldData where
  name : Str
  dispositions : Str := []
  filename : Str := []
  type : Str := []
  content : Str := []
  deriving DecidableEq

/-- The fields of a `form_data`. -/
abbrev FormData := List FormFieldData

namespace Form

def encodingFromString (str : Str) : Option Encoding :=
  if str = lit "application/x-www-form-urlencoded" then some .url
  else if str.contains (lit "multipart/form-data") then some .multipart
  else if str = lit "text/plain" then some .plain
  else none

/-- `catch (const std::exception&) { return { }; }`. -/
def catchStd (data : Except Exn (Option FormData)) : Except Exn (Option FormData) :=
  match data with
  | .ok data => .ok data
  | .error .nullDeref => .error .nullDeref
  | .error .outOfBounds => .error .outOfBounds
  | .error _ => .ok none

/-- The loop over the pairs of an URL-encoded body. -/
def urlencodedFields : List Str → Except Exn FormData
  | [] => .ok []
  | pairStr :: pairs =>
    match split pairStr (lit "=") with
    | [name, value] => do
      let content ← urlDecode value
      let fields ← urlencodedFields pairs
      return { name := name, content := content } :: fields
    | _ => urlencodedFields pairs

def parseUrlencoded (req : Request) : Except Exn (Option FormData) :=
  catchStd ((urlencodedFields (split req.body (lit "&"))).map some)

def locatorName : Str := lit "name="

def locatorFilename : Str := lit "filename="

/-- `dp.substr(locator.size()+1, dp.size()-locator.size()-2)`: the value of an attribute without
its quotation marks. -/
def unquoted (locator dp : Str) : Except Exn Str :=
  dp.substrN (locator.length + 1) (sizeSub (sizeSub dp.length locator.length) 2)

/-- The loop over the parts of the disposition, with `name` and `filename`. -/
def readDisposition : List Str → Str → Str → Except Exn (Str × Str)
  | [], name, filename => .ok (name, filename)
  | dp :: dps, name, filename =>
    if dp.startsWith locatorName then
      match unquoted locatorName dp with
      | .error e => .error e
      | .ok name => readDisposition dps name filename
    else if dp.startsWith locatorFilename then
      match unquoted locatorFilename dp with
      | .error e => .error e
      | .ok filename => readDisposition dps name filename
    else readDisposition dps name filename

/-- The loop over the parts of a multipart body. -/
def multipartFields : List Part → Except Exn (Option FormData)
  | [] => .ok (some [])
  | part :: parts =>
    match readDisposition (splitHeaderValue part.disposition) [] [] with
    | .error e => .error e
    | .ok (name, filename) =>
      -- the 'name' field is required
      if name = [] then .ok none
      else
        match multipartFields parts with
        | .error e => .error e
        | .ok none => .ok none
        | .ok (some fields) =>
          .ok (some ({ name := name, dispositions := part.disposition, filename := filename,
                       type := part.type, content := part.content } :: fields))

def parseMultipart (req : Request) : Except Exn (Option FormData) :=
  catchStd ((Multipart.parseRequest req).bind multipartFields)

/-- The fields of a plain-text body: each is encoded as {key}={value}\r\n. -/
def plainFields (lines : List Str) : FormData :=
  lines.filterMap fun line =>
    match split line (lit "=") with
    | [name, value] => some { name := name, content := value }
    | _ => none

def parsePlain (req : Request) : Except Exn (Option FormData) :=
  catchStd (.ok (some (plainFields (split req.body (lit "\r\n")))))

/-- `form::parse(req)`. -/
def parse (req : Request) : Except Exn (Option FormData) :=
  -- the value of a missing field is empty
  let contentType := (req.header.fields.find (lit "Content-Type")).getD []
  if contentType = [] then .ok none
  else
    match encodingFromString contentType with
    | none => .ok none
    | some .url => parseUrlencoded req
    | some .multipart => parseMultipart req
    | some .plain => parsePlain req

end Form

end Html
end Malloy
