import Malloy.Core.Http.Message
import Mathlib.Data.List.Forall2

/-!
# `malloy::html::multipart_parser` (`core/html/multipart_parser.cpp`)

A multipart body is cut at the positions where `find` finds the boundary line, and at the first
closing line after the last of them. A part is split into lines; the content begins where a
counter of the bytes of the lines up to the empty one says, and loses its last two bytes.

* `Multipart.parse`, `Multipart.parsePart`: the functions of the source. They work on positions, so
  they can throw `std::out_of_range`.
* `SentPart`, `encode`: a multipart body as it is sent.
* `parse_wrap`: `parse` cuts a body that is put together from raw parts where they were put
  together; `parsePart_raw`: `parsePart` reads one of them.
* `parse_encode`: parsing undoes encoding.
-/

namespace Malloy
namespace Html

open Http Lib

/-- `multipart_parser::part`. -/
structure Part where
  disposition : Str := []
  type : Str := []
  content : Str := []
  deriving DecidableEq

namespace Multipart

/-! ## The parser -/

def strDisposition : Str := lit "Content-Disposition: "

def strType : Str := lit "Content-Type: "

def crlf : Str := lit "\r\n"

/-- The loop over the lines, with `char_counter`. -/
def parseLines : List Str → Nat → Part → Nat × Part
  | [], charCounter, p => (charCounter, p)
  | line :: lines, charCounter, p =>
    -- +2 for \r\n which was stripped in the split
    let charCounter := charCounter + (line.length + 2)
    if line.startsWith strDisposition then
      parseLines lines charCounter { p with disposition := line.drop strDisposition.length }
    else if line.startsWith strType then
      parseLines lines charCounter { p with type := line.drop strType.length }
    -- Look for empty line before content starts
    else if line = [] then (charCounter, p)
    else parseLines lines charCounter p

def parsePart (partRaw : Str) : Except Exn (Option Part) :=
  if partRaw = [] then .ok none
  else
    let (charCounter, p) := parseLines (split partRaw crlf) 0 {}
    -- We do -2 to drop the last \r\n after the value
    match partRaw.substrN charCounter (sizeSub (sizeSub partRaw.length charCounter) 2) with
    | .error e => .error e
    | .ok content => .ok (some { p with content := content })

def boundaryLine (boundary : Str) : Str := lit "--" ++ boundary ++ crlf

def boundaryLineLast (boundary : Str) : Str := lit "--" ++ boundary ++ lit "--"

/-- The loop over the boundary lines. Each round moves `boundary_pos` by at least the size of one,
so `fuel = body.size() + 1` rounds are enough (`boundaryStarts_wrap`). -/
def boundaryStarts (body line : Str) : Nat → Nat → List Nat → List Nat
  | 0, _, starts => starts
  | fuel + 1, boundaryPos, starts =>
    match body.find line boundaryPos with
    | none => starts
    | some pos =>
      if pos ≥ body.length then starts
      else boundaryStarts body line fuel (pos + line.length) (starts ++ [pos])

/-- The loop over two neighbouring boundary starts. -/
def parseParts (body : Str) (lineSize : Nat) : List Nat → Except Exn (List Part)
  | start :: endPos :: rest => do
    let startPos := start + lineSize
    let partRaw ← body.substrN startPos (sizeSub endPos startPos)
    let part ← parsePart partRaw
    let parts ← parseParts body lineSize (endPos :: rest)
    return part.toList ++ parts
  | _ => .ok []

/-- `parse(body, boundary)`. -/
def parse (body boundary : Str) : Except Exn (List Part) :=
  if body = [] ∨ boundary = [] then .ok []
  else
    let line := boundaryLine boundary
    let starts := boundaryStarts body line (body.length + 1) 0 []
    match starts.getLast? with
    | none => .ok []
    | some back =>
      -- Find the location of the ending boundary line
      match body.find (boundaryLineLast boundary) back with
      | none => .ok []
      | some lastBoundaryPos => parseParts body line.length (starts ++ [lastBoundaryPos])

/-- The boundary of a Content-Type: that of the last part that has one. -/
def boundaryOf (contentType : Str) : Str :=
  (splitHeaderValue contentType).foldl (fun boundary part =>
    if !part.startsWith (lit "boundary") then boundary
    else
      match split part (lit "=") with
      | [_, value] => value
      | _ => boundary) []

/-- `parse(req)`. -/
def parseRequest (req : Request) : Except Exn (List Part) := do
  let contentType ← req.header.fields.at' (lit "Content-Type")
  if boundaryOf contentType = [] then return []
  parse req.body (boundaryOf contentType)

/-! ## Multipart bodies -/

end Multipart

/-- A part as it is sent. -/
structure SentPart where
  disposition : Str
  type : Option Str
  content : Str

namespace Multipart

/-- What every boundary line begins with. -/
def marker (boundary : Str) : Str := lit "--" ++ boundary

/-- The raw parts, each after a boundary line, and the closing line. -/
def wrap (boundary : Str) (raws : List Str) : Str :=
  (raws.flatMap fun raw => boundaryLine boundary ++ raw) ++ boundaryLineLast boundary

end Multipart

open Multipart

def SentPart.typeLine (p : SentPart) : Str :=
  match p.type with
  | some t => strType ++ t ++ crlf
  | none => []

def SentPart.raw (p : SentPart) : Str :=
  strDisposition ++ p.disposition ++ crlf ++ (p.typeLine ++ (crlf ++ (p.content ++ crlf)))

/-- The part that it is parsed to. -/
def SentPart.part (p : SentPart) : Part :=
  { disposition := p.disposition, type := p.type.getD [], content := p.content }

/-- The part can be sent with this boundary. -/
structure SentPart.Sendable (boundary : Str) (p : SentPart) : Prop where
  disposition : ¬ crlf <:+: p.disposition ∧ ¬ marker boundary <:+: p.disposition
  type : ∀ t ∈ p.type, ¬ crlf <:+: t ∧ ¬ marker boundary <:+: t
  content : ¬ marker boundary <:+: p.content

namespace Multipart

def encode (boundary : Str) (ps : List SentPart) : Str := wrap boundary (ps.map SentPart.raw)

/-- A boundary that is not empty and fits into one line. -/
structure ValidBoundary (boundary : Str) : Prop where
  ne_nil : boundary ≠ []
  cr : byte '\r' ∉ boundary
  lf : byte '\n' ∉ boundary

/-! ## Where the boundary lines are -/

variable {boundary : Str}

/-- A raw part ends a line, and has no boundary line. -/
structure IsRaw (boundary raw : Str) : Prop where
  free : ¬ marker boundary <:+: raw
  line : ∃ raw', raw = raw' ++ [byte '\n']

theorem boundaryLine_eq (boundary : Str) :
    boundaryLine boundary = marker boundary ++ [byte '\r'] ++ [byte '\n'] := by
  simp only [boundaryLine, marker, List.append_assoc]
  rfl

theorem boundaryLineLast_eq (boundary : Str) :
    boundaryLineLast boundary = marker boundary ++ [byte '-'] ++ [byte '-'] := by
  simp only [boundaryLineLast, marker, List.append_assoc]
  rfl

theorem lf_not_mem_marker (h : ValidBoundary boundary) : byte '\n' ∉ marker boundary := by
  unfold marker
  rw [List.mem_append, not_or]
  exact ⟨by decide, h.lf⟩

theorem lf_not_mem_boundaryLineLast (h : ValidBoundary boundary) :
    byte '\n' ∉ boundaryLineLast boundary := by
  unfold boundaryLineLast
  rw [List.mem_append, not_or]
  exact ⟨lf_not_mem_marker h, by decide⟩

/-- No boundary line lies in a raw part, or goes on behind it. -/
theorem not_infix_boundaryLine {x t : Str} (hx : ¬ marker boundary <:+: x) (ht : byte '\n' ∉ t) :
    ¬ boundaryLine boundary <:+: x ++ t := by
  intro hi
  rw [boundaryLine_eq] at hi
  have hx' := infix_of_last_not_mem ht hi
  apply hx
  rw [List.append_assoc] at hx'
  exact (List.prefix_append _ _).isInfix.trans hx'

/-- The first closing line is the one at the end. -/
theorem not_infix_boundaryLineLast (h : ValidBoundary boundary) {raw : Str}
    (hr : IsRaw boundary raw) :
    ¬ boundaryLineLast boundary <:+:
      boundaryLine boundary ++ raw ++ (boundaryLineLast boundary).dropLast := by
  have hlf := lf_not_mem_boundaryLineLast h
  obtain ⟨raw', rfl⟩ := hr.line
  intro hi
  have hsplit : boundaryLine boundary ++ (raw' ++ [byte '\n']) ++
      (boundaryLineLast boundary).dropLast =
      (marker boundary ++ [byte '\r']) ++ byte '\n' ::
        (raw' ++ byte '\n' :: (marker boundary ++ [byte '-'])) := by
    rw [boundaryLine_eq, boundaryLineLast_eq, List.dropLast_concat]
    simp
  have hlen : (boundaryLineLast boundary).length = (marker boundary).length + 2 := by
    rw [boundaryLineLast_eq]
    simp
  rw [hsplit] at hi
  rcases infix_of_not_mem hlf hi with hi | hi
  · have := hi.length_le
    simp at this
    omega
  · rcases infix_of_not_mem hlf hi with hi | hi
    · apply hr.free
      rw [boundaryLineLast_eq, List.append_assoc] at hi
      exact ((List.prefix_append _ _).isInfix.trans hi).trans (List.prefix_append _ _).isInfix
    · have := hi.length_le
      simp at this
      omega

/-! ## Cutting a body at its boundary lines -/

/-- Where the boundary lines of the raw parts are, the first one at `pos`. -/
def offsets (lineSize : Nat) : Nat → List Str → List Nat
  | _, [] => []
  | pos, raw :: raws => pos :: offsets lineSize (pos + (lineSize + raw.length)) raws

/-- Where the closing line is. -/
def closing (lineSize : Nat) : Nat → List Str → Nat
  | pos, [] => pos
  | pos, raw :: raws => closing lineSize (pos + (lineSize + raw.length)) raws

@[simp] theorem wrap_nil : wrap boundary [] = boundaryLineLast boundary := rfl

@[simp] theorem wrap_cons (raw : Str) (raws : List Str) :
    wrap boundary (raw :: raws) = boundaryLine boundary ++ (raw ++ wrap boundary raws) := by
  simp [wrap]

theorem wrap_ne_nil (raws : List Str) : wrap boundary raws ≠ [] :=
  List.append_ne_nil_of_right_ne_nil _ (List.cons_ne_nil _ _)

theorem boundaryLine_ne_nil : boundaryLine boundary ≠ [] := by
  rw [boundaryLine_eq]
  exact List.append_ne_nil_of_right_ne_nil _ (List.cons_ne_nil _ _)

theorem boundaryLine_dropLast :
    (boundaryLine boundary).dropLast = marker boundary ++ [byte '\r'] := by
  rw [boundaryLine_eq, List.dropLast_concat]

/-- What is behind a position of a body. -/
theorem drop_add {body x y : Str} {pos : Nat} (h : body.drop pos = x ++ y) :
    body.drop (pos + x.length) = y := by
  rw [← List.drop_drop, h, List.drop_left]

/-- The loop finds the boundary lines of the raw parts that are left, behind a text without one. -/
theorem boundaryStarts_wrap (hb : ValidBoundary boundary) {body : Str} {raws : List Str}
    (hraws : ∀ raw ∈ raws, ¬ marker boundary <:+: raw) {fuel pos : Nat} {x : Str}
    {starts : List Nat} (hx : ¬ marker boundary <:+: x)
    (hdrop : body.drop pos = x ++ wrap boundary raws) (hfuel : body.length - pos < fuel) :
    boundaryStarts body (boundaryLine boundary) fuel pos starts =
      starts ++ offsets (boundaryLine boundary).length (pos + x.length) raws := by
  induction raws generalizing fuel pos x starts with
  | nil =>
    obtain ⟨fuel, rfl⟩ := Nat.exists_eq_add_one_of_ne_zero (show fuel ≠ 0 by omega)
    have hnone : body.find (boundaryLine boundary) pos = none := by
      apply find_of_not_isInfix
      rw [hdrop]
      exact not_infix_boundaryLine hx (lf_not_mem_boundaryLineLast hb)
    unfold boundaryStarts
    rw [hnone]
    exact (List.append_nil _).symm
  | cons raw raws ih =>
    obtain ⟨fuel, rfl⟩ := Nat.exists_eq_add_one_of_ne_zero (show fuel ≠ 0 by omega)
    obtain ⟨hraw, hraws⟩ := List.forall_mem_cons.mp hraws
    have hlf : byte '\n' ∉ marker boundary ++ [byte '\r'] := by
      rw [List.mem_append, not_or]
      exact ⟨lf_not_mem_marker hb, by decide⟩
    have hfirst : ¬ boundaryLine boundary <:+: x ++ (boundaryLine boundary).dropLast := by
      rw [boundaryLine_dropLast]
      exact not_infix_boundaryLine hx hlf
    rw [wrap_cons, ← List.append_assoc] at hdrop
    have hfind : body.find (boundaryLine boundary) pos = some (pos + x.length) :=
      find_of_first boundaryLine_ne_nil hdrop hfirst
    have hlen := congrArg List.length hdrop
    have hpos := List.length_pos_iff.mpr (@boundaryLine_ne_nil boundary)
    simp only [List.length_append, List.length_drop] at hlen
    have hnext : body.drop (pos + x.length + (boundaryLine boundary).length) =
        raw ++ wrap boundary raws := by
      rw [Nat.add_assoc, ← List.length_append]
      exact drop_add hdrop
    unfold boundaryStarts
    rw [hfind]
    dsimp only
    rw [if_neg (by omega), ih hraws hraw hnext (by omega), List.append_assoc, offsets,
      Nat.add_assoc]
    rfl

/-- The first closing line behind the last boundary line closes the body. -/
theorem find_closing (hb : ValidBoundary boundary) {body : Str} {raws : List Str}
    (hraws : ∀ raw ∈ raws, IsRaw boundary raw) (hne : raws ≠ []) {pos : Nat}
    (hdrop : body.drop pos = wrap boundary raws) :
    ∃ back, (offsets (boundaryLine boundary).length pos raws).getLast? = some back ∧
      body.find (boundaryLineLast boundary) back =
        some (closing (boundaryLine boundary).length pos raws) := by
  induction raws generalizing pos with
  | nil => exact absurd rfl hne
  | cons raw raws ih =>
    obtain ⟨hraw, hraws⟩ := List.forall_mem_cons.mp hraws
    rw [wrap_cons, ← List.append_assoc] at hdrop
    have hnext := drop_add hdrop
    rw [List.length_append] at hnext
    cases raws with
    | nil =>
      refine ⟨pos, rfl, ?_⟩
      have hne : boundaryLineLast boundary ≠ [] := by
        rw [boundaryLineLast_eq]
        exact List.append_ne_nil_of_right_ne_nil _ (List.cons_ne_nil _ _)
      have hdrop' : body.drop pos =
          (boundaryLine boundary ++ raw) ++ boundaryLineLast boundary ++ [] := by
        rw [hdrop, wrap_nil, List.append_nil]
      rw [find_of_first hne hdrop' (not_infix_boundaryLineLast hb hraw), List.length_append]
      rfl
    | cons raw' raws =>
      obtain ⟨back, hlast, hfind⟩ := ih hraws (List.cons_ne_nil _ _) hnext
      exact ⟨back, by rw [offsets, offsets, List.getLast?_cons_cons, ← offsets]; exact hlast, hfind⟩

theorem offsets_closing (lineSize pos : Nat) (raws : List Str) :
    ∃ rest, offsets lineSize pos raws ++ [closing lineSize pos raws] = pos :: rest := by
  cases raws with
  | nil => exact ⟨[], rfl⟩
  | cons raw raws => exact ⟨_, rfl⟩

/-- Between two neighbouring boundary starts is a raw part. -/
theorem parseParts_wrap {body : Str} {raws : List Str} {parts : List Part}
    (hparse : List.Forall₂ (fun raw p => parsePart raw = .ok (some p)) raws parts) {pos : Nat}
    (hdrop : body.drop pos = wrap boundary raws) :
    parseParts body (boundaryLine boundary).length
      (offsets (boundaryLine boundary).length pos raws ++
        [closing (boundaryLine boundary).length pos raws]) = .ok parts := by
  induction hparse generalizing pos with
  | nil => rfl
  | @cons raw p raws parts hp _ ih =>
    rw [wrap_cons] at hdrop
    have hraw := drop_add hdrop
    have hnext := drop_add hraw
    obtain ⟨rest, hrest⟩ := offsets_closing (boundaryLine boundary).length
      (pos + ((boundaryLine boundary).length + raw.length)) raws
    rw [Nat.add_assoc] at hnext
    have hlen := congrArg List.length hraw
    have hpos := List.length_pos_iff.mpr (@wrap_ne_nil boundary raws)
    simp only [List.length_append, List.length_drop] at hlen
    have hsub : body.substrN (pos + (boundaryLine boundary).length)
        (sizeSub (pos + ((boundaryLine boundary).length + raw.length))
          (pos + (boundaryLine boundary).length)) = .ok raw := by
      unfold Str.substrN
      rw [if_pos (by omega), hraw, ← Nat.add_assoc, sizeSub_add, List.take_left]
    have htail := ih hnext
    rw [hrest] at htail
    rw [offsets, closing, List.cons_append, hrest, parseParts]
    simp only [hsub, hp, htail, bind, Except.bind, pure, Except.pure]
    rfl

/-- **`parse` cuts a body where it was put together.** -/
theorem parse_wrap (hb : ValidBoundary boundary) {raws : List Str} {parts : List Part}
    (hraws : ∀ raw ∈ raws, IsRaw boundary raw)
    (hparse : List.Forall₂ (fun raw p => parsePart raw = .ok (some p)) raws parts) :
    parse (wrap boundary raws) boundary = .ok parts := by
  have hnil : ¬ marker boundary <:+: [] := by
    rw [List.infix_nil]
    exact List.cons_ne_nil _ _
  have hstarts : boundaryStarts (wrap boundary raws) (boundaryLine boundary)
      ((wrap boundary raws).length + 1) 0 [] =
        [] ++ offsets (boundaryLine boundary).length (0 + 0) raws :=
    boundaryStarts_wrap hb (fun raw hraw => (hraws raw hraw).free) hnil rfl (Nat.lt_succ_self _)
  unfold parse
  rw [if_neg (by simp [wrap_ne_nil, hb.ne_nil])]
  dsimp only
  rw [hstarts]
  cases raws with
  | nil =>
    cases hparse
    rfl
  | cons raw raws =>
    have hbody : (wrap boundary (raw :: raws)).drop 0 = wrap boundary (raw :: raws) := rfl
    obtain ⟨back, hlast, hfind⟩ := find_closing hb hraws (List.cons_ne_nil _ _) hbody
    have hparts := parseParts_wrap hparse hbody
    rw [List.nil_append, Nat.add_zero, hlast]
    dsimp only
    rw [hfind]
    exact hparts

/-! ## Reading a part -/

theorem crlf_not_infix {u v : Str} (hu : byte '\r' ∉ u) (hv : ¬ crlf <:+: v) :
    ¬ crlf <:+: u ++ v :=
  fun h => hv (infix_of_head_not_mem (d := [byte '\n']) hu h)

theorem pieces_crlf {p : Str} (h : ¬ crlf <:+: p) (r : Str) :
    pieces crlf (p ++ crlf ++ r) = p :: pieces crlf r :=
  pieces_pair_append (by decide) h r

end Multipart

/-- The lines of the header of the part. -/
def SentPart.typeLines (p : SentPart) : List Str :=
  match p.type with
  | some t => [strType ++ t]
  | none => []

namespace Multipart

variable {p : SentPart}

theorem pieces_raw (h : p.Sendable boundary) :
    pieces crlf p.raw = (strDisposition ++ p.disposition) :: p.typeLines ++
      [] :: pieces crlf (p.content ++ crlf) := by
  have hd : ¬ crlf <:+: strDisposition ++ p.disposition :=
    crlf_not_infix (by decide) h.disposition.1
  have hempty : pieces crlf (crlf ++ (p.content ++ crlf)) =
      [] :: pieces crlf (p.content ++ crlf) :=
    pieces_crlf (p := []) (by decide) _
  unfold SentPart.raw SentPart.typeLine SentPart.typeLines
  rw [pieces_crlf hd]
  cases ht : p.type with
  | none =>
    dsimp only
    rw [List.nil_append, hempty]
    rfl
  | some t =>
    have htl : ¬ crlf <:+: strType ++ t := crlf_not_infix (by decide) (h.type t ht).1
    dsimp only
    rw [pieces_crlf htl, hempty]
    rfl

/-- The lines of a raw part: the header up to the empty line, and what the content is split to. -/
theorem split_raw (h : p.Sendable boundary) :
    ∃ rest, split p.raw crlf =
      (strDisposition ++ p.disposition) :: (p.typeLines ++ [] :: rest) := by
  have hne : p.raw ≠ [] := List.append_ne_nil_of_left_ne_nil
    (List.append_ne_nil_of_right_ne_nil _ (List.cons_ne_nil _ _)) _
  have hlast : pieces crlf (p.content ++ crlf) ≠ [[]] := by
    intro hp
    have hc := intercalate_pieces (d := crlf) (List.cons_ne_nil _ _) (p.content ++ crlf)
    rw [hp, List.intercalate_singleton] at hc
    exact List.append_ne_nil_of_right_ne_nil _ (List.cons_ne_nil _ _) hc.symm
  refine ⟨dropTrailing (pieces crlf (p.content ++ crlf)), ?_⟩
  have hcrlf : crlf ≠ [] := by decide
  rw [split_eq hne hcrlf, pieces_raw h]
  have hlead : dropLeading ((strDisposition ++ p.disposition) :: p.typeLines ++
      [] :: pieces crlf (p.content ++ crlf)) =
      ((strDisposition ++ p.disposition) :: p.typeLines ++ [[]]) ++
        pieces crlf (p.content ++ crlf) := by
    rw [List.append_assoc]
    rfl
  rw [hlead, dropTrailing_append _ (pieces_ne_nil _ _) hlast, List.append_assoc]
  rfl

theorem startsWith_append (u v : Str) : (u ++ v).startsWith u = true :=
  Str.startsWith_iff.mpr (List.prefix_append u v)

/-- The loop over the lines stops at the empty line, behind the header. -/
theorem parseLines_raw (p : SentPart) (rest : List Str) :
    parseLines ((strDisposition ++ p.disposition) :: (p.typeLines ++ [] :: rest)) 0 {} =
      ((strDisposition ++ p.disposition ++ crlf ++ (p.typeLine ++ crlf)).length,
        { disposition := p.disposition, type := p.type.getD [] }) := by
  have hcrlf : crlf.length = 2 := rfl
  unfold SentPart.typeLine SentPart.typeLines
  rw [parseLines, if_pos (startsWith_append _ _), List.drop_left]
  cases p.type with
  | none =>
    rw [List.nil_append, parseLines, if_neg (by decide), if_neg (by decide), if_pos rfl]
    refine Prod.ext ?_ rfl
    simp only [List.length_append, List.length_nil, hcrlf]
    omega
  | some t =>
    have hno : ¬ (strType ++ t).startsWith strDisposition = true := by
      intro h
      cases h
    rw [List.singleton_append, parseLines, if_neg hno, if_pos (startsWith_append _ _),
      List.drop_left, parseLines, if_neg (by decide), if_neg (by decide), if_pos rfl]
    refine Prod.ext ?_ rfl
    simp only [List.length_append, List.length_nil, hcrlf]
    omega

/-- **`parsePart` reads what was sent.** -/
theorem parsePart_raw (h : p.Sendable boundary) : parsePart p.raw = .ok (some p.part) := by
  obtain ⟨rest, hsplit⟩ := split_raw h
  have hraw : p.raw = (strDisposition ++ p.disposition ++ crlf ++ (p.typeLine ++ crlf)) ++
      (p.content ++ crlf) := by
    unfold SentPart.raw
    simp only [List.append_assoc]
  have hne : p.raw ≠ [] := by
    rw [hraw]
    exact List.append_ne_nil_of_right_ne_nil _
      (List.append_ne_nil_of_right_ne_nil _ (List.cons_ne_nil _ _))
  unfold parsePart
  rw [if_neg hne, hsplit, parseLines_raw, hraw]
  dsimp only
  generalize strDisposition ++ p.disposition ++ crlf ++ (p.typeLine ++ crlf) = front
  have hsize : sizeSub (sizeSub (front ++ (p.content ++ crlf)).length front.length) 2 =
      p.content.length := by
    have hcrlf : crlf.length = 2 := rfl
    rw [List.length_append, List.length_append, sizeSub_add, hcrlf, Nat.add_comm, sizeSub_add]
  rw [hsize, Str.substrN, if_pos (by rw [List.length_append]; omega), List.drop_left,
    List.take_left]
  rfl

theorem marker_eq (boundary : Str) : marker boundary = byte '-' :: byte '-' :: boundary := rfl

/-- No boundary line begins in a header name. -/
theorem marker_not_infix_append {u v : Str} (hu : ¬ lit "--" <:+: u ++ lit "-")
    (hv : ¬ marker boundary <:+: v) : ¬ marker boundary <:+: u ++ v := by
  intro h
  rw [marker_eq] at h hv
  exact hv (infix_of_not_infix_pair hu h)

/-- No boundary line lies across the end of a line. -/
theorem marker_not_infix_crlf (hb : ValidBoundary boundary) {u v : Str}
    (hu : ¬ marker boundary <:+: u) (hv : ¬ marker boundary <:+: v) :
    ¬ marker boundary <:+: u ++ crlf ++ v := by
  have hcr : byte '\r' ∉ marker boundary := by
    rw [marker, List.mem_append, not_or]
    exact ⟨by decide, hb.cr⟩
  intro h
  rw [List.append_assoc] at h
  rcases infix_of_not_mem hcr (v := byte '\n' :: v) h with h | h
  · exact hu h
  · rcases infix_of_not_mem (lf_not_mem_marker hb) (u := []) h with h | h
    · rw [List.infix_nil] at h
      cases h
    · exact hv h

theorem isRaw_raw (hb : ValidBoundary boundary) (h : p.Sendable boundary) :
    IsRaw boundary p.raw := by
  have hnil : ¬ marker boundary <:+: [] := by
    rw [List.infix_nil]
    exact List.cons_ne_nil _ _
  have hd : ¬ marker boundary <:+: strDisposition ++ p.disposition :=
    marker_not_infix_append (by decide) h.disposition.2
  have hcontent : ¬ marker boundary <:+: p.content ++ crlf := by
    have := marker_not_infix_crlf hb h.content hnil
    rwa [List.append_nil] at this
  have hempty : ¬ marker boundary <:+: crlf ++ (p.content ++ crlf) := by
    have := marker_not_infix_crlf hb hnil hcontent
    rwa [List.nil_append] at this
  refine ⟨?_, ?_⟩
  · unfold SentPart.raw SentPart.typeLine
    apply marker_not_infix_crlf hb hd
    cases ht : p.type with
    | none => exact hempty
    | some t =>
      have htype : ¬ marker boundary <:+: strType ++ t :=
        marker_not_infix_append (by decide) (h.type t ht).2
      exact marker_not_infix_crlf hb htype hempty
  · refine ⟨strDisposition ++ p.disposition ++ crlf ++
      (p.typeLine ++ (crlf ++ (p.content ++ [byte '\r']))), ?_⟩
    unfold SentPart.raw
    simp only [List.append_assoc]
    rfl

/-- **Parsing undoes encoding.** -/
theorem parse_encode (hb : ValidBoundary boundary) {ps : List SentPart}
    (hps : ∀ p ∈ ps, p.Sendable boundary) :
    parse (encode boundary ps) boundary = .ok (ps.map SentPart.part) := by
  apply parse_wrap hb
  · intro raw hraw
    obtain ⟨p, hp, rfl⟩ := List.mem_map.mp hraw
    exact isRaw_raw hb (hps p hp)
  · rw [List.forall₂_map_left_iff, List.forall₂_map_right_iff]
    exact List.forall₂_same.mpr fun p hp => parsePart_raw (hps p hp)

/-- An empty file, and a content that looks like a header. -/
def twoParts : List SentPart :=
  [{ disposition := lit "form-data; name=\"f\"", type := some (lit "text/plain"), content := [] },
    { disposition := lit "form-data; name=\"t\"", type := none,
      content := lit "\r\nContent-Type: a\r\n" }]

theorem parse_encode_twoParts :
    parse (encode (lit "X") twoParts) (lit "X") = .ok (twoParts.map SentPart.part) := by
  refine parse_encode ⟨by decide, by decide, by decide⟩ fun p hp => ?_
  rcases List.mem_cons.mp hp with rfl | hp
  · refine ⟨by decide, fun t ht => ?_, by decide⟩
    cases ht
    decide
  · rw [List.mem_singleton.mp hp]
    exact ⟨by decide, fun t ht => (by cases ht), by decide⟩

end Multipart

end Html
end Malloy
