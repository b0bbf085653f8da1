import Malloy.Core.Html.Form

/-!
# Multipart submissions

A browser sends a field of a form as a part whose disposition carries the name and the filename
between quotation marks. `form::parse` cuts the disposition at `"; "`, also inside of them.

* `SentField`: a field of a submission; `Submits`: the request that carries it.
* `readDisposition_disposition`: without the separator in an attribute the disposition is read
  back; `separable_of_readDisposition`: otherwise it is not.
* `parse_multipart_iff`: when a submission is parsed to the submitted fields.
-/

namespace Malloy
namespace Html

open Http Lib Form

/-! ## Submitted fields -/

/-- A field of a submission. -/
structure SentField where
  name : Str
  filename : Option Str
  type : Option Str
  content : Str

/-- A text between quotation marks. -/
def quoted (x : Str) : Str := lit "\"" ++ (x ++ lit "\"")

namespace SentField

def filenameText (f : SentField) : Str :=
  match f.filename with
  | some filename => lit "; " ++ (locatorFilename ++ quoted filename)
  | none => []

def disposition (f : SentField) : Str :=
  lit "form-data" ++ lit "; " ++ (locatorName ++ quoted f.name ++ f.filenameText)

/-- The part that carries the field. -/
def sent (f : SentField) : SentPart :=
  { disposition := f.disposition, type := f.type, content := f.content }

/-- What the field should be parsed to: its name, filename, type and content. -/
def expected (f : SentField) : Str × Str × Str × Str :=
  (f.name, f.filename.getD [], f.type.getD [], f.content)

/-- A text that can stand between quotation marks. -/
structure Quotable (boundary x : Str) : Prop where
  quote : byte '"' ∉ x
  cr : byte '\r' ∉ x
  lf : byte '\n' ∉ x
  free : ¬ Multipart.marker boundary <:+: x

/-- The field can be submitted with this boundary. -/
structure Valid (boundary : Str) (f : SentField) : Prop where
  ne_nil : f.name ≠ []
  name : Quotable boundary f.name
  filename : ∀ x ∈ f.filename, Quotable boundary x
  type : ∀ t ∈ f.type, ¬ Multipart.crlf <:+: t ∧ ¬ Multipart.marker boundary <:+: t
  content : ¬ Multipart.marker boundary <:+: f.content

/-- No attribute contains the separator of the attributes. -/
def Separable (f : SentField) : Prop :=
  ¬ lit "; " <:+: f.name ∧ ∀ x ∈ f.filename, ¬ lit "; " <:+: x

end SentField

/-- The name, filename, type and content of a parsed field. -/
def FormFieldData.summary (d : FormFieldData) : Str × Str × Str × Str :=
  (d.name, d.filename, d.type, d.content)

/-- Letters, digits and `-`. -/
def boundaryChar (b : UInt8) : Bool :=
  (byte 'a' ≤ b && b ≤ byte 'z') || (byte 'A' ≤ b && b ≤ byte 'Z') ||
    (byte '0' ≤ b && b ≤ byte '9') || b == byte '-'

namespace Form

variable {boundary : Str} {f : SentField}

/-! ## The part of a field -/

theorem not_mem_boundary (hB : ∀ b ∈ boundary, boundaryChar b = true) {c : UInt8}
    (hc : boundaryChar c = false) : c ∉ boundary := by
  intro hm
  rw [hB c hm] at hc
  cases hc

theorem cr_not_mem_quoted {x : Str} (h : byte '\r' ∉ x) : byte '\r' ∉ quoted x := by
  unfold quoted
  rw [List.mem_append, List.mem_append, not_or, not_or]
  exact ⟨by decide, h, by decide⟩

theorem cr_not_mem_disposition (h : f.Valid boundary) : byte '\r' ∉ f.disposition := by
  have hfile : byte '\r' ∉ f.filenameText := by
    unfold SentField.filenameText
    cases hx : f.filename with
    | none => exact List.not_mem_nil
    | some x =>
      dsimp only
      rw [List.mem_append, List.mem_append, not_or, not_or]
      exact ⟨by decide, by decide, cr_not_mem_quoted (h.filename x hx).cr⟩
  unfold SentField.disposition
  rw [List.mem_append, List.mem_append, List.mem_append, List.mem_append]
  simp only [not_or]
  exact ⟨⟨by decide, by decide⟩, ⟨by decide, cr_not_mem_quoted h.name.cr⟩, hfile⟩

/-- No boundary line lies across a quotation mark. -/
theorem marker_not_infix_quoted (hB : ∀ b ∈ boundary, boundaryChar b = true) {u x v : Str}
    (hu : ¬ lit "--" <:+: u ++ lit "-") (hx : ¬ Multipart.marker boundary <:+: x)
    (hv : ¬ Multipart.marker boundary <:+: v) :
    ¬ Multipart.marker boundary <:+: u ++ quoted x ++ v := by
  have hquote : byte '"' ∉ Multipart.marker boundary := by
    rw [Multipart.marker, List.mem_append, not_or]
    exact ⟨by decide, not_mem_boundary hB (by decide)⟩
  have hnil : ¬ Multipart.marker boundary <:+: [] := by
    rw [List.infix_nil]
    exact List.cons_ne_nil _ _
  intro hi
  have hsplit : u ++ quoted x ++ v = u ++ byte '"' :: (x ++ byte '"' :: v) := by
    simp only [quoted, List.append_assoc]
    rfl
  rw [hsplit] at hi
  rcases infix_of_not_mem hquote hi with hi | hi
  · have := Multipart.marker_not_infix_append hu hnil
    rw [List.append_nil] at this
    exact this hi
  · rcases infix_of_not_mem hquote hi with hi | hi
    · exact hx hi
    · exact hv hi

theorem marker_not_infix_disposition (hB : ∀ b ∈ boundary, boundaryChar b = true)
    (h : f.Valid boundary) : ¬ Multipart.marker boundary <:+: f.disposition := by
  have hnil : ¬ Multipart.marker boundary <:+: [] := by
    rw [List.infix_nil]
    exact List.cons_ne_nil _ _
  have hfile : ¬ Multipart.marker boundary <:+: f.filenameText := by
    unfold SentField.filenameText
    cases hx : f.filename with
    | none => exact hnil
    | some x =>
      have := marker_not_infix_quoted hB (u := lit "; " ++ locatorFilename) (by decide)
        (h.filename x hx).free hnil
      rw [List.append_nil, List.append_assoc] at this
      exact this
  have := marker_not_infix_quoted hB (u := lit "form-data" ++ lit "; " ++ locatorName) (by decide)
    h.name.free hfile
  simp only [List.append_assoc] at this
  unfold SentField.disposition
  simp only [List.append_assoc]
  exact this

theorem sendable_sent (hB : ∀ b ∈ boundary, boundaryChar b = true) (h : f.Valid boundary) :
    f.sent.Sendable boundary where
  disposition := by
    refine ⟨fun hi => cr_not_mem_disposition h (hi.subset List.mem_cons_self), ?_⟩
    exact marker_not_infix_disposition hB h
  type := h.type
  content := h.content

/-! ## Reading the disposition -/

/-- The attribute value that `readDisposition` cuts out of a quoted attribute. -/
theorem unquoted_quoted (locator x : Str) : unquoted locator (locator ++ quoted x) = .ok x := by
  have hlen : (locator ++ quoted x).length = locator.length + (2 + x.length) := by
    simp [quoted, lit]
    omega
  unfold unquoted Str.substrN
  rw [hlen, sizeSub_add, sizeSub_add, if_pos (by omega), ← List.drop_drop, List.drop_left]
  show Except.ok ((x ++ lit "\"").take x.length) = .ok x
  rw [List.take_left]

theorem not_infix_quoted {locator x : Str} (hl : byte ';' ∉ locator) (hx : ¬ lit "; " <:+: x) :
    ¬ lit "; " <:+: locator ++ quoted x := by
  intro hi
  have h1 := infix_of_head_not_mem (d := lit " ") hl hi
  have h2 := infix_of_head_not_mem (d := lit " ") (by decide) h1
  exact hx (infix_of_last_not_mem (d := lit ";") (c := byte ' ') (by decide) h2)

/-- A quoted attribute is cut out whole. -/
theorem splitHeaderValue_disposition (h : f.Separable) :
    splitHeaderValue f.disposition = lit "form-data" :: (locatorName ++ quoted f.name) ::
      (match f.filename with
        | some x => [locatorFilename ++ quoted x]
        | none => []) := by
  have hab : byte ';' ≠ byte ' ' := by decide
  have hname : ¬ lit "; " <:+: locatorName ++ quoted f.name :=
    not_infix_quoted (by decide) h.1
  have hne : ∀ y, locatorName ++ quoted f.name ++ y ≠ [] := fun y =>
    List.append_ne_nil_of_left_ne_nil (List.append_ne_nil_of_left_ne_nil (by decide) _) _
  unfold splitHeaderValue SentField.disposition
  have hfirst := split_append hab (x := lit "form-data") (by decide) (by decide)
    (hne f.filenameText)
  refine hfirst.trans (congrArg _ ?_)
  unfold SentField.filenameText
  cases hx : f.filename with
  | none =>
    dsimp only
    rw [List.append_nil]
    exact dropTrailing_pieces hname
  | some x =>
    have hfile : ¬ lit "; " <:+: locatorFilename ++ quoted x :=
      not_infix_quoted (by decide) (h.2 x hx)
    have hy : locatorFilename ++ quoted x ≠ [] := List.append_ne_nil_of_left_ne_nil (by decide) _
    dsimp only
    rw [← List.append_assoc]
    refine (dropTrailing_pieces_append hab hname hy).trans (congrArg _ ?_)
    exact dropTrailing_pieces hfile

theorem readDisposition_name (x name filename : Str) (dps : List Str) :
    readDisposition ((locatorName ++ quoted x) :: dps) name filename =
      readDisposition dps x filename := by
  rw [readDisposition, if_pos (Multipart.startsWith_append _ _), unquoted_quoted]

theorem readDisposition_filename (x name filename : Str) (dps : List Str) :
    readDisposition ((locatorFilename ++ quoted x) :: dps) name filename =
      readDisposition dps name x := by
  have hno : ¬ (locatorFilename ++ quoted x).startsWith locatorName = true := by
    intro h
    cases h
  rw [readDisposition, if_neg hno, if_pos (Multipart.startsWith_append _ _), unquoted_quoted]

/-- **A separable disposition gives its attributes.** -/
theorem readDisposition_disposition (h : f.Separable) :
    readDisposition (splitHeaderValue f.disposition) [] [] =
      .ok (f.name, f.filename.getD []) := by
  rw [splitHeaderValue_disposition h]
  have hfirst : ∀ dps, readDisposition (lit "form-data" :: dps) [] [] =
      readDisposition dps [] [] := fun dps => by
    rw [readDisposition, if_neg (by decide), if_neg (by decide)]
  rw [hfirst, readDisposition_name]
  cases f.filename with
  | none => rfl
  | some x => exact readDisposition_filename x _ _ []

theorem infix_of_unquoted {locator dp x : Str} (h : unquoted locator dp = .ok x) :
    x <:+: dp := by
  unfold unquoted Str.substrN at h
  split at h
  · cases h
    exact (List.take_prefix _ _).isInfix.trans (List.drop_suffix _ _).isInfix
  · cases h

/-- What is read of a disposition has no separator in it. -/
theorem not_infix_of_readDisposition {dps : List Str} (hdps : ∀ dp ∈ dps, ¬ lit "; " <:+: dp)
    {name filename n x : Str} (hn : ¬ lit "; " <:+: name) (hx : ¬ lit "; " <:+: filename)
    (h : readDisposition dps name filename = .ok (n, x)) :
    ¬ lit "; " <:+: n ∧ ¬ lit "; " <:+: x := by
  induction dps generalizing name filename with
  | nil =>
    cases h
    exact ⟨hn, hx⟩
  | cons dp dps ih =>
    obtain ⟨hdp, hdps⟩ := List.forall_mem_cons.mp hdps
    have hpart : ∀ locator y, unquoted locator dp = .ok y → ¬ lit "; " <:+: y :=
      fun locator y hy hi => hdp (hi.trans (infix_of_unquoted hy))
    rw [readDisposition] at h
    split at h
    · split at h
      · cases h
      · rename_i y hy
        exact ih hdps (hpart _ y hy) hx h
    · split at h
      · split at h
        · cases h
        · rename_i y hy
          exact ih hdps hn (hpart _ y hy) h
      · exact ih hdps hn hx h

/-- The attributes are only read back if they are separable. -/
theorem separable_of_readDisposition
    (h : readDisposition (splitHeaderValue f.disposition) [] [] =
      .ok (f.name, f.filename.getD [])) : f.Separable := by
  have hnil : ¬ lit "; " <:+: [] := by decide
  have hparts : ∀ dp ∈ splitHeaderValue f.disposition, ¬ lit "; " <:+: dp :=
    fun dp hdp => not_infix_of_mem_split (by decide) hdp
  obtain ⟨hn, hx⟩ := not_infix_of_readDisposition hparts hnil hnil h
  refine ⟨hn, fun x hm => ?_⟩
  rw [hm] at hx
  exact hx

/-! ## Whole submissions -/

/-- What a field is parsed to. -/
def data (f : SentField) : FormFieldData :=
  { name := f.name, dispositions := f.disposition, filename := f.filename.getD [],
    type := f.type.getD [], content := f.content }

theorem multipartFields_sent {fields : List SentField}
    (hv : ∀ f ∈ fields, f.name ≠ [] ∧ f.Separable) :
    multipartFields (fields.map fun f => f.sent.part) = .ok (some (fields.map data)) := by
  induction fields with
  | nil => rfl
  | cons f fields ih =>
    obtain ⟨⟨hne, hf⟩, hfields⟩ := List.forall_mem_cons.mp hv
    have hread : readDisposition (splitHeaderValue f.sent.part.disposition) [] [] = _ :=
      readDisposition_disposition hf
    rw [List.map_cons, multipartFields, hread]
    dsimp only
    rw [if_neg hne, ih hfields]
    rfl

/-- Every parsed field is what is read of the disposition of its part. -/
theorem multipartFields_ok {parts : List Part} {fd : FormData}
    (h : multipartFields parts = .ok (some fd)) :
    List.Forall₂ (fun part d => readDisposition (splitHeaderValue part.disposition) [] [] =
      .ok (d.name, d.filename)) parts fd := by
  induction parts generalizing fd with
  | nil =>
    cases h
    exact .nil
  | cons part parts ih =>
    rw [multipartFields] at h
    split at h
    · cases h
    · rename_i name filename hr
      split at h
      · cases h
      · split at h
        · cases h
        · cases h
        · rename_i fields hfields
          cases h
          exact .cons hr (ih hfields)

theorem separable_of_multipartFields {fields : List SentField} {fd : FormData}
    (h : multipartFields (fields.map fun f => f.sent.part) = .ok (some fd))
    (hfd : fd.map FormFieldData.summary = fields.map SentField.expected) :
    ∀ f ∈ fields, f.Separable := by
  have hall := List.forall₂_map_left_iff.mp (multipartFields_ok h)
  clear h
  induction hall with
  | nil => exact fun f hf => absurd hf List.not_mem_nil
  | @cons f d fields fd hr _ ih =>
    obtain ⟨hd, hfd⟩ := List.cons.inj hfd
    refine List.forall_mem_cons.mpr ⟨separable_of_readDisposition ?_, ih hfd⟩
    have hname : d.name = f.name := congrArg (·.1) hd
    have hfile : d.filename = f.filename.getD [] := congrArg (·.2.1) hd
    rw [← hname, ← hfile]
    exact hr

theorem catchStd_some {x : Except Exn (Option FormData)} {fd : FormData} :
    catchStd x = .ok (some fd) ↔ x = .ok (some fd) := by
  match x with
  | .ok _ => exact Iff.rfl
  | .error e => cases e <;> simp [catchStd]

theorem split_boundaryAttribute (hB : ∀ b ∈ boundary, boundaryChar b = true) :
    split (lit "boundary" ++ lit "=" ++ boundary) (lit "=") =
      if boundary = [] then [lit "boundary"] else [lit "boundary", boundary] := by
  have heq : byte '=' ∉ boundary := not_mem_boundary hB (by decide)
  have hrest : dropTrailing (pieces [byte '='] boundary) = [boundary] :=
    dropTrailing_pieces fun hi => heq (hi.subset List.mem_cons_self)
  have hsplit := split_append_singleton (c := byte '=') (x := lit "boundary") (by decide)
    (by decide) boundary
  rw [hrest] at hsplit
  exact hsplit

/-- The boundary of the Content-Type of a submission. -/
theorem boundaryOf_contentType (hB : ∀ b ∈ boundary, boundaryChar b = true) :
    Multipart.boundaryOf (lit "multipart/form-data" ++ lit "; " ++
      (lit "boundary" ++ lit "=" ++ boundary)) = boundary := by
  have hno : ¬ lit "; " <:+: lit "boundary" ++ lit "=" ++ boundary := by
    intro hi
    have hb : byte ';' ∉ boundary := not_mem_boundary hB (by decide)
    have hm : byte ';' ∈ lit "boundary" ++ lit "=" ++ boundary := hi.subset List.mem_cons_self
    rcases List.mem_append.mp hm with hm | hm
    · exact absurd hm (by decide)
    · exact hb hm
  have hsplit : splitHeaderValue (lit "multipart/form-data" ++ lit "; " ++
      (lit "boundary" ++ lit "=" ++ boundary)) =
      [lit "multipart/form-data", lit "boundary" ++ lit "=" ++ boundary] := by
    have hne : lit "boundary" ++ lit "=" ++ boundary ≠ [] :=
      List.append_ne_nil_of_left_ne_nil (by decide) _
    unfold splitHeaderValue
    refine (split_append (by decide) (by decide) (by decide) hne).trans (congrArg _ ?_)
    exact dropTrailing_pieces hno
  have hfirst : (lit "multipart/form-data").startsWith (lit "boundary") = false := by decide
  have hsecond : (lit "boundary" ++ lit "=" ++ boundary).startsWith (lit "boundary") = true := by
    rw [List.append_assoc]
    exact Multipart.startsWith_append _ _
  unfold Multipart.boundaryOf
  rw [hsplit, List.foldl_cons, List.foldl_cons, List.foldl_nil, hfirst, hsecond,
    split_boundaryAttribute hB]
  by_cases hb : boundary = []
  · rw [if_pos hb, hb]
    rfl
  · rw [if_neg hb]
    rfl

/-- A submission of these fields. -/
structure Submits (boundary : Str) (fields : List SentField) (req : Request) : Prop where
  contentType : req.header.fields.find (lit "Content-Type") =
    some (lit "multipart/form-data; boundary=" ++ boundary)
  body : req.body = Multipart.encode boundary (fields.map SentField.sent)

theorem parse_eq_multipart {req : Request} {fields : List SentField}
    (h : Submits boundary fields req) : parse req = parseMultipart req := by
  have hne : lit "multipart/form-data; boundary=" ++ boundary ≠ [] :=
    List.append_ne_nil_of_left_ne_nil (by decide) _
  have hurl : ¬ lit "multipart/form-data; boundary=" ++ boundary =
      lit "application/x-www-form-urlencoded" := by
    intro he
    cases he
  have hcont : (lit "multipart/form-data; boundary=" ++ boundary).contains
      (lit "multipart/form-data") = true := by
    have hlit : lit "multipart/form-data; boundary=" =
        lit "multipart/form-data" ++ lit "; boundary=" := by decide
    rw [hlit, List.append_assoc]
    exact Str.contains_iff.mpr (List.prefix_append _ _).isInfix
  unfold parse encodingFromString
  rw [h.contentType, Option.getD_some]
  dsimp only
  rw [if_neg hne, if_neg hurl, if_pos hcont]

/-- The parts of a submission. -/
theorem parseRequest_submits (hB : ∀ b ∈ boundary, boundaryChar b = true) {req : Request}
    {fields : List SentField} (h : Submits boundary fields req)
    (hv : ∀ f ∈ fields, f.Valid boundary) :
    Multipart.parseRequest req =
      .ok (if boundary = [] then [] else fields.map fun f => f.sent.part) := by
  have hct : lit "multipart/form-data; boundary=" ++ boundary =
      lit "multipart/form-data" ++ lit "; " ++ (lit "boundary" ++ lit "=" ++ boundary) := by
    have hlit : lit "multipart/form-data; boundary=" =
        lit "multipart/form-data" ++ lit "; " ++ (lit "boundary" ++ lit "=") := by decide
    rw [hlit, List.append_assoc]
  unfold Multipart.parseRequest Fields.at'
  rw [h.contentType]
  simp only [bind, Except.bind]
  rw [hct, boundaryOf_contentType hB]
  by_cases hb : boundary = []
  · rw [if_pos hb, if_pos hb]
    rfl
  · have hvalid : Multipart.ValidBoundary boundary :=
      ⟨hb, not_mem_boundary hB (by decide), not_mem_boundary hB (by decide)⟩
    have hsent : ∀ p ∈ fields.map SentField.sent, p.Sendable boundary := by
      intro p hp
      obtain ⟨f, hf, rfl⟩ := List.mem_map.mp hp
      exact sendable_sent hB (hv f hf)
    rw [if_neg hb, if_neg hb, h.body]
    refine Multipart.parse_wrap hvalid (fun raw hraw => ?_) ?_
    · obtain ⟨p, hp, rfl⟩ := List.mem_map.mp hraw
      exact Multipart.isRaw_raw hvalid (hsent p hp)
    · rw [List.map_map, List.forall₂_map_left_iff, List.forall₂_map_right_iff]
      exact List.forall₂_same.mpr fun f hf => Multipart.parsePart_raw (sendable_sent hB (hv f hf))

/-- **When a multipart submission is parsed to the submitted fields**: if the boundary is not empty
(or there are no fields), and exactly if no name and no filename contains the separator of the
attributes of a disposition. -/
theorem parse_multipart_iff (hB : ∀ b ∈ boundary, boundaryChar b = true) {req : Request}
    {fields : List SentField} (h : Submits boundary fields req)
    (hv : ∀ f ∈ fields, f.Valid boundary) :
    (∃ fd, parse req = .ok (some fd) ∧
        fd.map FormFieldData.summary = fields.map SentField.expected) ↔
      (boundary ≠ [] ∨ fields = []) ∧ ∀ f ∈ fields, f.Separable := by
  rw [parse_eq_multipart h]
  simp only [parseMultipart, catchStd_some, parseRequest_submits hB h hv, Except.bind]
  by_cases hb : boundary = []
  · simp only [if_pos hb]
    constructor
    · rintro ⟨fd, hfd, hmap⟩
      cases hfd
      have hnil : fields = [] := List.map_eq_nil_iff.mp hmap.symm
      exact ⟨.inr hnil, fun f hf => by rw [hnil] at hf; cases hf⟩
    · rintro ⟨hne | rfl, -⟩
      · exact absurd hb hne
      · exact ⟨[], rfl, rfl⟩
  · simp only [if_neg hb]
    constructor
    · rintro ⟨fd, hfd, hmap⟩
      exact ⟨.inl hb, separable_of_multipartFields hfd hmap⟩
    · rintro ⟨-, hsep⟩
      refine ⟨fields.map data, multipartFields_sent fun f hf => ⟨(hv f hf).ne_nil, hsep f hf⟩, ?_⟩
      rw [List.map_map]
      rfl

/-- The request that submits these fields with the boundary `X`. -/
def submission (fields : List SentField) : Request where
  header := {
    method := .post
    target := lit "/"
    fields := [(lit "Content-Type", lit "multipart/form-data; boundary=X")] }
  body := Multipart.encode (lit "X") (fields.map SentField.sent)

/-- A text and a file. -/
def textAndFile : List SentField :=
  [{ name := lit "a;b", filename := none, type := none, content := lit "\r\n" },
    { name := lit "name=", filename := some (lit "x y.txt"), type := some (lit "text/plain"),
      content := [] }]

theorem quotable_of_decide {x : Str} (h : (x.all fun c => c != byte '"' && c != byte '\r' &&
    c != byte '\n') = true) (hf : ¬ Multipart.marker boundary <:+: x) :
    SentField.Quotable boundary x := by
  have hall : ∀ c ∈ x, c ≠ byte '"' ∧ c ≠ byte '\r' ∧ c ≠ byte '\n' := by
    intro c hc
    simpa [and_assoc] using List.all_eq_true.mp h c hc
  exact ⟨fun hm => (hall _ hm).1 rfl, fun hm => (hall _ hm).2.1 rfl,
    fun hm => (hall _ hm).2.2 rfl, hf⟩

theorem valid_textAndFile : ∀ f ∈ textAndFile, f.Valid (lit "X") := by
  intro f hf
  rcases List.mem_cons.mp hf with rfl | hf
  · refine ⟨by decide, quotable_of_decide (by decide) (by decide), fun x hx => ?_, fun t ht => ?_,
      by decide⟩
    · cases hx
    · cases ht
  · rw [List.mem_singleton.mp hf]
    refine ⟨by decide, quotable_of_decide (by decide) (by decide), fun x hx => ?_, fun t ht => ?_,
      by decide⟩
    · cases hx
      exact quotable_of_decide (by decide) (by decide)
    · cases ht
      decide

theorem parse_multipart_textAndFile :
    ∃ fd, parse (submission textAndFile) = .ok (some fd) ∧
      fd.map FormFieldData.summary = textAndFile.map SentField.expected := by
  refine (parse_multipart_iff (by decide +kernel) ⟨rfl, rfl⟩ valid_textAndFile).mpr
    ⟨.inl (by decide), fun f hf => ?_⟩
  rcases List.mem_cons.mp hf with rfl | hf
  · exact ⟨by decide, fun x hx => (by cases hx)⟩
  · rw [List.mem_singleton.mp hf]
    refine ⟨by decide, fun x hx => ?_⟩
    cases hx
    decide

/-- A text whose name holds an attribute. -/
def attributeName : SentField :=
  { name := lit "ab; filename=evil", filename := none, type := none, content := lit "1" }

/-- The name of a field gives it a filename. -/
theorem name_determines_filename :
    ¬ ∀ (boundary : Str) (req : Request) (fields : List SentField),
      (∀ b ∈ boundary, boundaryChar b = true) → Submits boundary fields req →
      (∀ f ∈ fields, f.Valid boundary) →
      ∃ fd, parse req = .ok (some fd) ∧
        fd.map FormFieldData.summary = fields.map SentField.expected := by
  intro h
  have hvalid : ∀ f ∈ [attributeName], f.Valid (lit "X") := by
    intro f hf
    rw [List.mem_singleton.mp hf]
    exact ⟨by decide, quotable_of_decide (by decide) (by decide), fun x hx => (by cases hx),
      fun t ht => (by cases ht), by decide⟩
  obtain ⟨fd, hfd, hmap⟩ := h (lit "X") (submission [attributeName]) [attributeName]
    (by decide +kernel) ⟨rfl, rfl⟩ hvalid
  have hparse : (parse (submission [attributeName])).toOption.join.map
      (·.map FormFieldData.summary) = some [(lit "a", lit "vil", [], lit "1")] := by
    decide +kernel
  rw [hfd] at hparse
  change some (fd.map FormFieldData.summary) = _ at hparse
  rw [hmap] at hparse
  exact absurd hparse (by decide)

end Form

end Html
end Malloy
