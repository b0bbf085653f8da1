import Malloy.Core.Html.BoundaryParameter

/-!
# Spellings of a Content-Type

A header field that carries a boundary may have white space around its semicolons, other parameters
ahead of the boundary and behind it, and quoted values. `parse(req)` knows of none of this.

* `Spelling`: the field as it is spelled; `Spelling.Legal`: it is well formed and denotes a
  boundary.
* `cuts`: where the field is cut (`Spelling.Legal.pieces_text`). A space right behind a
  semicolon cuts; a field with a cut inside of a quoted value is not `Spelling.Calm`.
* `names_attribute_iff`: the value of the last part is the boundary only for a token that ends where
  the part does.
* `parseRequest_spelling_iff`: for which spellings the boundary is read.
-/

namespace Malloy
namespace Html
namespace Multipart

open Http Lib

variable {B : Str}

/-! ## How a Content-Type is spelled -/

/-- The characters of a boundary. -/
def bchar (c : UInt8) : Bool := alphanumeric c || (lit "'()+_,-./:=? ").elem c

/-- The characters of a token. -/
def tokenChar (c : UInt8) : Bool := alphanumeric c || (lit "!#$%&'*+-.^_`|~").elem c

/-- The characters of a quoted string, with or without a backslash before them. -/
def textChar (c : UInt8) : Bool := c == byte '\t' || (byte ' ' ≤ c && c != 127)

def blank (c : UInt8) : Bool := c == byte ' ' || c == byte '\t'

/-- A boundary that may be chosen: spaces are in its interior only. -/
structure LegalBoundary (B : Str) : Prop where
  ne_nil : B ≠ []
  length_le : B.length ≤ 70
  chars : ∀ c ∈ B, bchar c = true
  interior : B.head? ≠ some (byte ' ') ∧ B.getLast? ≠ some (byte ' ')

/-- The value of a parameter as it is spelled; a quoted one without its quotation marks. -/
inductive ParamValue where
  | token (t : Str)
  | quoted (raw : Str)
  deriving DecidableEq

def ParamValue.text : ParamValue → Str
  | token t => t
  | quoted raw => lit "\"" ++ raw ++ lit "\""

/-- What a quoted string denotes: a backslash quotes the character behind it. -/
def unquote : Str → Option Str
  | [] => some []
  | c :: r =>
    if c = byte '\\' then
      match r with
      | [] => none
      | d :: r => if textChar d then (unquote r).map (d :: ·) else none
    else if c = byte '"' || !textChar c then none
    else (unquote r).map (c :: ·)

/-- The value is spelled like this. -/
def ParamValue.Denotes : ParamValue → Str → Prop
  | token t, v => t = v ∧ t ≠ [] ∧ ∀ c ∈ t, tokenChar c = true
  | quoted raw, v => unquote raw = some v

/-- No quoted text in the value has the separator in it at which the field is cut. -/
def ParamValue.Calm (value : ParamValue) : Prop :=
  ∀ raw, value = .quoted raw → ¬ lit "; " <:+: raw

/-- A parameter, with the white space around the semicolon before it. -/
structure Parameter where
  before : Str
  after : Str
  name : Str
  value : ParamValue
  deriving DecidableEq

/-- The name and the value. -/
def Parameter.attribute (p : Parameter) : Str := p.name ++ (lit "=" ++ p.value.text)

def Parameter.text (p : Parameter) : Str := p.before ++ (lit ";" ++ (p.after ++ p.attribute))

structure Parameter.Legal (p : Parameter) : Prop where
  before : ∀ c ∈ p.before, blank c = true
  after : ∀ c ∈ p.after, blank c = true
  name_ne : p.name ≠ []
  name : ∀ c ∈ p.name, tokenChar c = true
  value : ∃ v, p.value.Denotes v

/-- A Content-Type as it is spelled: further parameters are ahead of the boundary and behind it. -/
structure Spelling where
  subtype : Str
  ahead : List Parameter
  boundary : Parameter
  behind : List Parameter
  deriving DecidableEq

namespace Spelling

def mediaType (s : Spelling) : Str := lit "multipart/" ++ s.subtype

def text (s : Spelling) : Str :=
  s.mediaType ++ (s.ahead ++ s.boundary :: s.behind).flatMap Parameter.text

/-- The spelling is legal, for the boundary `B`. -/
structure Legal (s : Spelling) (B : Str) : Prop where
  subtype : ∀ c ∈ s.subtype, tokenChar c = true
  legal : ∀ p ∈ s.ahead ++ s.boundary :: s.behind, p.Legal
  further : ∀ p ∈ s.ahead ++ s.behind, p.name.startsWith (lit "boundary") = false
  name : s.boundary.name = lit "boundary"
  value : s.boundary.value.Denotes B

def Calm (s : Spelling) : Prop :=
  ∀ p ∈ s.ahead ++ s.boundary :: s.behind, p.value.Calm

/-- The boundary is a token, with exactly one space before it, and what follows is cut off. -/
def Plain (s : Spelling) : Prop :=
  (∃ t, s.boundary.value = .token t) ∧ s.boundary.after = lit " " ∧
    ∀ p ∈ s.behind.head?, p.before = [] ∧ p.after.head? = some (byte ' ')

end Spelling

/-! ## Characters that a spelling does not have -/

/-- A character that is no token character is in no token. -/
theorem not_mem_of_chars {p : UInt8 → Bool} {c : UInt8} (hc : p c = false) {t : Str}
    (h : ∀ c ∈ t, p c = true) : c ∉ t := by
  intro hm
  rw [h c hm] at hc
  cases hc

theorem LegalBoundary.valid (h : LegalBoundary B) : ValidBoundary B :=
  ⟨h.ne_nil, not_mem_of_chars (by decide) h.chars, not_mem_of_chars (by decide) h.chars⟩

/-- A quoted string has text characters only. -/
theorem textChar_of_unquote {raw v : Str} (h : unquote raw = some v) :
    ∀ c ∈ raw, textChar c = true := by
  fun_induction unquote raw generalizing v with
  | case1 => intro c hc; cases hc
  | case2 => cases h
  | case3 d r hd ih =>
    obtain ⟨w, hw, -⟩ := Option.map_eq_some_iff.mp h
    intro c hc
    rcases List.mem_cons.mp hc with rfl | hc
    · decide
    · rcases List.mem_cons.mp hc with rfl | hc
      · exact hd
      · exact ih hw c hc
  | case4 => cases h
  | case5 => cases h
  | case6 x r hx hq ih =>
    obtain ⟨w, hw, -⟩ := Option.map_eq_some_iff.mp h
    intro c hc
    rcases List.mem_cons.mp hc with rfl | hc
    · rw [Bool.or_eq_true, not_or] at hq
      simpa using hq.2
    · exact ih hw c hc

section

variable {c : UInt8}

theorem ParamValue.not_mem_text {value : ParamValue} {v : Str} (h : value.Denotes v)
    (htok : tokenChar c = false) (htext : textChar c = false) : c ∉ value.text := by
  cases value with
  | token t => exact not_mem_of_chars htok h.2.2
  | quoted raw =>
    have hquote : c ∉ lit "\"" := by
      rintro hm
      rw [List.mem_singleton.mp hm] at htext
      exact absurd htext (by decide)
    unfold ParamValue.text
    rw [List.mem_append, List.mem_append, not_or, not_or]
    exact ⟨⟨hquote, not_mem_of_chars htext (textChar_of_unquote h)⟩, hquote⟩

theorem Parameter.Legal.not_mem_text {p : Parameter} (h : p.Legal) (htok : tokenChar c = false)
    (htext : textChar c = false) (hblank : blank c = false) (heq : c ∉ lit ";=") :
    c ∉ p.text := by
  obtain ⟨v, hv⟩ := h.value
  have hvalue := ParamValue.not_mem_text hv htok htext
  have hname := not_mem_of_chars htok h.name
  have hbefore := not_mem_of_chars hblank h.before
  have hafter := not_mem_of_chars hblank h.after
  unfold Parameter.text Parameter.attribute
  simp only [List.mem_append, not_or]
  exact ⟨hbefore, fun hm => heq (List.mem_append_left [byte '='] hm), hafter, hname,
    fun hm => heq (List.mem_append_right [byte ';'] hm), hvalue⟩

/-- A character that is none of the grammar is not in the field. -/
theorem Spelling.Legal.not_mem_text {s : Spelling} (h : s.Legal B) (htok : tokenChar c = false)
    (htext : textChar c = false) (hblank : blank c = false)
    (hlit : c ∉ lit ";=" ∧ c ∉ lit "multipart/") : c ∉ s.text := by
  unfold Spelling.text Spelling.mediaType
  simp only [List.mem_append, not_or]
  refine ⟨⟨hlit.2, not_mem_of_chars htok h.subtype⟩, fun hm => ?_⟩
  obtain ⟨p, hp, hc⟩ := List.mem_flatMap.mp hm
  exact (h.legal p hp).not_mem_text htok htext hblank hlit.1 hc

end

/-! ## Where the field is cut -/

/-- No separator is in the text, also when a space follows. -/
def Quiet (u : Str) : Prop := ¬ lit "; " <:+: u ++ lit " "

section

variable {u v : Str} {p : Parameter}

theorem Quiet.append (hu : Quiet u) (hv : Quiet v) : Quiet (u ++ v) := by
  intro h
  rw [List.append_assoc] at h
  exact hv (infix_of_not_infix_pair hu h)

theorem Quiet.not_infix (h : Quiet u) : ¬ lit "; " <:+: u :=
  fun hi => h (hi.trans (List.prefix_append u _).isInfix)

theorem quiet_of_not_mem (h : byte ';' ∉ u) : Quiet u := by
  intro hi
  rcases List.mem_append.mp (hi.subset List.mem_cons_self) with hm | hm
  · exact h hm
  · exact absurd hm (by decide)

/-- A semicolon in front of something else than a space. -/
theorem Quiet.cons_semicolon (h : Quiet u) (hne : u ≠ []) (hspace : u.head? ≠ some (byte ' ')) :
    Quiet (byte ';' :: u) := by
  intro hi
  obtain ⟨c, u, rfl⟩ := List.exists_cons_of_ne_nil hne
  rcases List.infix_cons_iff.mp hi with ⟨t, ht⟩ | hi
  · obtain ⟨-, ht⟩ := List.cons.inj ht
    exact hspace (congrArg some (List.cons.inj ht).1.symm)
  · exact h hi

theorem ParamValue.Calm.quiet {value : ParamValue} (hc : value.Calm) (hv : value.Denotes v) :
    Quiet value.text := by
  cases value with
  | token t => exact quiet_of_not_mem (not_mem_of_chars (by decide) hv.2.2)
  | quoted raw =>
    have hquote : byte '"' ∉ lit "; " := by decide
    intro hi
    have htext : (ParamValue.quoted raw).text ++ lit " " =
        [] ++ byte '"' :: (raw ++ byte '"' :: lit " ") := by
      rw [ParamValue.text, show lit "\"" = [byte '"'] from rfl]
      simp
    rw [htext] at hi
    rcases infix_of_not_mem hquote hi with hi | hi
    · exact absurd hi (by decide)
    · rcases infix_of_not_mem hquote hi with hi | hi
      · exact hc raw rfl hi
      · exact absurd hi (by decide)

theorem Parameter.Legal.quiet_attribute (h : p.Legal) (hc : p.value.Calm) : Quiet p.attribute := by
  obtain ⟨v, hv⟩ := h.value
  have hname : Quiet p.name := quiet_of_not_mem (not_mem_of_chars (by decide) h.name)
  exact hname.append ((quiet_of_not_mem (by decide)).append (hc.quiet hv))

theorem quiet_of_blank (h : ∀ c ∈ u, blank c = true) : Quiet u :=
  quiet_of_not_mem (not_mem_of_chars (by decide) h)

/-- Without a space behind its semicolon the field is not cut before a parameter. -/
theorem Parameter.Legal.quiet_text (h : p.Legal) (hc : p.value.Calm)
    (hspace : p.after.head? ≠ some (byte ' ')) : Quiet p.text := by
  have hrest : Quiet (p.after ++ p.attribute) :=
    (quiet_of_blank h.after).append (h.quiet_attribute hc)
  refine (quiet_of_blank h.before).append (hrest.cons_semicolon ?_ ?_)
  · simp [Parameter.attribute, h.name_ne]
  · cases hafter : p.after with
    | cons c after => simpa [hafter] using hspace
    | nil =>
      obtain ⟨c, name, hname⟩ := List.exists_cons_of_ne_nil h.name_ne
      have hc : tokenChar c = true := h.name c (hname ▸ List.mem_cons_self)
      rw [List.nil_append, Parameter.attribute, hname]
      rintro he
      cases he
      exact absurd hc (by decide)

/-- The parts of a field: what is behind `acc` is cut before each parameter with a space. -/
def cuts (acc : Str) : List Parameter → List Str
  | [] => [acc]
  | p :: ps =>
    if p.after.head? = some (byte ' ') then
      (acc ++ p.before) :: cuts (p.after.tail ++ p.attribute) ps
    else cuts (acc ++ p.text) ps

theorem pieces_eq_cuts {ps : List Parameter} {acc : Str} (hacc : Quiet acc)
    (h : ∀ p ∈ ps, p.Legal ∧ p.value.Calm) :
    pieces (lit "; ") (acc ++ ps.flatMap Parameter.text) = cuts acc ps := by
  induction ps generalizing acc with
  | nil =>
    rw [List.flatMap_nil, List.append_nil]
    exact pieces_eq_singleton hacc.not_infix
  | cons p ps ih =>
    obtain ⟨⟨hp, hcalm⟩, hps⟩ := List.forall_mem_cons.mp h
    unfold cuts
    split
    · rename_i hspace
      obtain ⟨after, hafter⟩ : ∃ after, p.after = byte ' ' :: after := by
        cases ha : p.after with
        | nil => rw [ha] at hspace; cases hspace
        | cons c after => rw [ha] at hspace; cases hspace; exact ⟨after, rfl⟩
      have htail : ∀ c ∈ after, blank c = true := fun c hc =>
        hp.after c (hafter ▸ List.mem_cons_of_mem _ hc)
      have hnext := (quiet_of_blank htail).append (hp.quiet_attribute hcalm)
      have htext : acc ++ (p :: ps).flatMap Parameter.text = (acc ++ p.before) ++ lit "; " ++
          (after ++ p.attribute ++ ps.flatMap Parameter.text) := by
        rw [List.flatMap_cons, Parameter.text, hafter,
          show lit "; " = [byte ';', byte ' '] from rfl, show lit ";" = [byte ';'] from rfl]
        simp
      have hquiet := hacc.append (quiet_of_blank hp.before)
      rw [htext, hafter, List.tail_cons, ← ih hnext hps]
      exact pieces_pair_append (by decide) hquiet.not_infix _
    · rename_i hspace
      rw [← ih (hacc.append (hp.quiet_text hcalm hspace)) hps]
      simp

end

/-- **The parts of a calm field.** -/
theorem Spelling.Legal.pieces_text {s : Spelling} (h : s.Legal B) (hc : s.Calm) :
    pieces (lit "; ") s.text = cuts s.mediaType (s.ahead ++ s.boundary :: s.behind) := by
  have hmedia : Quiet s.mediaType := (quiet_of_not_mem (by decide)).append
    (quiet_of_not_mem (not_mem_of_chars (by decide) h.subtype))
  exact pieces_eq_cuts hmedia fun p hp => ⟨h.legal p hp, hc p hp⟩

/-! ## Which parts name a boundary -/

/-- No part names a boundary. -/
def Silent (parts : List Str) : Prop := ∀ q ∈ parts, ∀ v, ¬ NamesBoundary q v

theorem Silent.not_lastNames {parts : List Str} {v : Str} (h : Silent parts) :
    ¬ LastNames parts v := by
  rintro ⟨pre, p, post, rfl, hp, -⟩
  exact h p (by simp) v hp

theorem Silent.lastNames_cons_iff {part v : Str} {parts : List Str} (h : Silent parts) :
    LastNames (part :: parts) v ↔ NamesBoundary part v := by
  constructor
  · rintro ⟨pre, p, post, he, hp, -⟩
    cases pre with
    | nil =>
      obtain ⟨rfl, -⟩ := List.cons.inj he
      exact hp
    | cons q pre =>
      obtain ⟨-, rfl⟩ := List.cons.inj he
      exact absurd hp (h p (by simp) v)
  · exact fun hp => ⟨[], part, parts, rfl, hp, h⟩

/-- Nothing that begins with this text names a boundary. -/
def Other (acc : Str) : Prop := ∀ t v, ¬ NamesBoundary (acc ++ t) v

section

variable {u acc v : Str} {p : Parameter} {ps : List Parameter}

theorem Other.append (h : Other acc) (u : Str) : Other (acc ++ u) := by
  intro t v
  rw [List.append_assoc]
  exact h (u ++ t) v

theorem Other.not_names (h : Other acc) (v : Str) : ¬ NamesBoundary acc v := by
  have := h [] v
  rwa [List.append_nil] at this

theorem other_of_not_isPrefix (h : ∀ t, ¬ lit "boundary" <+: acc ++ t) : Other acc :=
  fun t _ hn => h t (Str.startsWith_iff.mp (names_iff.mp hn).1)

theorem other_cons {c : UInt8} (hc : c ≠ byte 'b') (u : Str) : Other (c :: u) := by
  refine other_of_not_isPrefix fun t ⟨r, hr⟩ => ?_
  exact hc (List.cons.inj hr).1.symm

/-- A further parameter is legal, and its name does not begin with the word. -/
structure Parameter.Further (p : Parameter) : Prop where
  legal : p.Legal
  name : p.name.startsWith (lit "boundary") = false

/-- It names no boundary, with white space before it or not. -/
theorem Parameter.Further.other (h : p.Further) : Other (p.after.tail ++ p.attribute) := by
  cases htail : p.after.tail with
  | cons c u =>
    have hmem : c ∈ p.after.tail := htail ▸ List.mem_cons_self
    have hblank : blank c = true := h.legal.after c (List.mem_of_mem_tail hmem)
    refine other_cons (fun hc => ?_) _
    rw [hc] at hblank
    exact absurd hblank (by decide)
  | nil =>
    have hname := h.name
    refine other_of_not_isPrefix fun t h => ?_
    have hattr : [] ++ p.attribute ++ t = p.name ++ byte '=' :: (p.value.text ++ t) := by
      rw [Parameter.attribute, show lit "=" = [byte '='] from rfl]
      simp
    rw [hattr] at h
    rw [Str.startsWith_iff.mpr (isPrefix_of_not_mem (by decide) h)] at hname
    cases hname

theorem silent_cuts (hacc : Other acc) (h : ∀ p ∈ ps, p.Further) : Silent (cuts acc ps) := by
  induction ps generalizing acc with
  | nil =>
    intro q hq
    rw [List.mem_singleton.mp hq]
    exact hacc.not_names
  | cons p ps ih =>
    obtain ⟨hp, hps⟩ := List.forall_mem_cons.mp h
    unfold cuts
    split
    · refine List.forall_mem_cons.mpr ⟨(hacc.append _).not_names, ?_⟩
      exact ih hp.other hps
    · exact ih (hacc.append _) hps

/-- The parts ahead of the boundary name none, and only one space may be before it. -/
theorem lastNames_cuts_iff (hacc : Other acc) {b : Parameter} {behind : List Parameter}
    (hahead : ∀ p ∈ ps, p.Further) (hb : b.Legal) (hbehind : ∀ p ∈ behind, p.Further) :
    LastNames (cuts acc (ps ++ b :: behind)) v ↔
      b.after = lit " " ∧ LastNames (cuts b.attribute behind) v := by
  induction ps generalizing acc with
  | cons p ps ih =>
    obtain ⟨hp, hps⟩ := List.forall_mem_cons.mp hahead
    rw [List.cons_append, cuts]
    split
    · rw [lastNames_cons_iff (hacc.append _).not_names]
      exact ih hp.other hps
    · exact ih (hacc.append _) hps
  | nil =>
    rw [List.nil_append]
    have hnone : ∀ {x : Str}, Other x → ¬ LastNames (cuts x behind) v :=
      fun hx => (silent_cuts hx hbehind).not_lastNames
    rw [cuts]
    split
    · rename_i hspace
      rw [lastNames_cons_iff (hacc.append _).not_names]
      match hafter : b.after with
      | [] => rw [hafter] at hspace; cases hspace
      | [c] =>
        rw [hafter] at hspace
        cases hspace
        exact (and_iff_right rfl).symm
      | c :: d :: after =>
        have hblank : blank d = true := hb.after d (hafter ▸ by simp)
        have hd : d ≠ byte 'b' := by
          rintro rfl
          exact absurd hblank (by decide)
        exact iff_of_false (hnone (other_cons hd _)) fun h => by cases h.1
    · rename_i hspace
      refine iff_of_false (hnone (hacc.append _)) fun h => hspace ?_
      rw [h.1]
      rfl

end

/-! ## The value of the boundary -/

section

variable {p : Parameter} {t tail : Str} {ps : List Parameter}

/-- A value is read when it is a token and nothing is between it and the next cut. -/
theorem names_attribute_iff (hB : LegalBoundary B) (hname : p.name = lit "boundary")
    (hv : p.value.Denotes B) (htail : tail.head? ≠ some (byte '=')) :
    NamesBoundary (p.attribute ++ tail) B ↔ (∃ t, p.value = .token t) ∧ tail = [] := by
  have hattr : p.attribute ++ tail =
      lit "boundary" ++ [] ++ [byte '='] ++ (p.value.text ++ tail) := by
    rw [Parameter.attribute, hname, show lit "=" = [byte '='] from rfl]
    simp
  rw [hattr, names_append_iff List.not_mem_nil]
  constructor
  · rintro ⟨-, hy⟩
    replace hy := hy.imp_left And.right
    match hvalue : p.value with
    | .token t =>
      rw [hvalue] at hv hy
      obtain ⟨rfl, -⟩ := hv
      refine ⟨⟨t, rfl⟩, ?_⟩
      rcases hy with hy | hy
      · exact List.append_right_eq_self.mp hy
      · exact absurd (by rw [List.append_cancel_left hy]; rfl) htail
    | .quoted raw =>
      -- a quotation mark is no character of a boundary
      rw [hvalue] at hy
      have hquote : byte '"' ∉ B := not_mem_of_chars (by decide) hB.chars
      have hB' : ∀ r, byte '"' :: (raw ++ lit "\"" ++ tail) ≠ B ++ r := by
        intro r hr
        obtain ⟨c, b, rfl⟩ := List.exists_cons_of_ne_nil hB.ne_nil
        rw [List.cons_append] at hr
        obtain ⟨rfl, -⟩ := List.cons.inj hr
        exact hquote List.mem_cons_self
      rcases hy with hy | hy
      · exact absurd (hy.trans (List.append_nil B).symm) (hB' [])
      · exact absurd hy (hB' [byte '='])
  · rintro ⟨⟨t, ht⟩, rfl⟩
    rw [ht] at hv ⊢
    obtain ⟨rfl, hne, hchars⟩ := hv
    rw [ParamValue.text, List.append_nil]
    exact ⟨not_mem_of_chars (by decide) hchars, .inl ⟨hne, rfl⟩⟩

theorem cuts_eq_cons (ps : List Parameter) :
    ∃ tail parts, ∀ acc, cuts acc ps = (acc ++ tail) :: parts := by
  induction ps with
  | nil => exact ⟨[], [], fun acc => by rw [cuts, List.append_nil]⟩
  | cons p ps ih =>
    by_cases hspace : p.after.head? = some (byte ' ')
    · refine ⟨p.before, cuts (p.after.tail ++ p.attribute) ps, fun acc => ?_⟩
      rw [cuts, if_pos hspace]
    · obtain ⟨tail, parts, h⟩ := ih
      refine ⟨p.text ++ tail, parts, fun acc => ?_⟩
      rw [cuts, if_neg hspace, h, List.append_assoc]

/-- What is between the boundary and the next parameter is white space, or a semicolon. -/
theorem Parameter.Legal.head_ne_eq (h : p.Legal) (u : Str) :
    (p.before ++ (byte ';' :: u)).head? ≠ some (byte '=') := by
  cases hbefore : p.before with
  | nil =>
    rintro he
    cases he
  | cons c before =>
    have hc : blank c = true := h.before c (hbefore ▸ List.mem_cons_self)
    rintro he
    cases he
    exact absurd hc (by decide)

theorem lastNames_behind_iff (hB : LegalBoundary B) (hname : p.name = lit "boundary")
    (hv : p.value.Denotes B) (h : ∀ p ∈ ps, p.Further) :
    LastNames (cuts p.attribute ps) B ↔ (∃ t, p.value = .token t) ∧
      ∀ q ∈ ps.head?, q.before = [] ∧ q.after.head? = some (byte ' ') := by
  cases ps with
  | nil =>
    have hnone : Silent [] := fun q hq => by cases hq
    rw [cuts, hnone.lastNames_cons_iff, ← List.append_nil p.attribute,
      names_attribute_iff hB hname hv (by simp)]
    simp
  | cons q ps =>
    obtain ⟨hq, hps⟩ := List.forall_mem_cons.mp h
    rw [List.head?_cons]
    simp only [Option.mem_some_iff, forall_eq']
    by_cases hspace : q.after.head? = some (byte ' ')
    · have hbefore : q.before.head? ≠ some (byte '=') := by
        intro he
        refine hq.legal.head_ne_eq [] ?_
        rw [List.head?_append, he]
        rfl
      rw [cuts, if_pos hspace, (silent_cuts hq.other hps).lastNames_cons_iff,
        names_attribute_iff hB hname hv hbefore, and_iff_left hspace]
    · refine iff_of_false ?_ fun h => hspace h.2.2
      obtain ⟨tail, parts, hcuts⟩ := cuts_eq_cons ps
      have hparts : Silent parts := by
        have := silent_cuts (other_cons (c := byte 'x') (by decide) []) hps
        rw [hcuts] at this
        exact (List.forall_mem_cons.mp this).2
      have htext : p.attribute ++ q.text ++ tail =
          p.attribute ++ (q.before ++ (byte ';' :: (q.after ++ q.attribute ++ tail))) := by
        rw [Parameter.text, show lit ";" = [byte ';'] from rfl]
        simp
      rw [cuts, if_neg hspace, hcuts, hparts.lastNames_cons_iff, htext,
        names_attribute_iff hB hname hv (hq.legal.head_ne_eq _)]
      simp

end

/-! ## For which spellings the boundary is read -/

theorem Spelling.Legal.lastBoundary_iff {s : Spelling} (hB : LegalBoundary B) (h : s.Legal B)
    (hc : s.Calm) : LastBoundary s.text B ↔ s.Plain := by
  have hahead : ∀ p ∈ s.ahead, p.Further := fun p hp =>
    ⟨h.legal p (by simp [hp]), h.further p (by simp [hp])⟩
  have hbehind : ∀ p ∈ s.behind, p.Further := fun p hp =>
    ⟨h.legal p (by simp [hp]), h.further p (by simp [hp])⟩
  have hmedia : Other s.mediaType := other_cons (by decide) _
  rw [LastBoundary, h.pieces_text hc,
    lastNames_cuts_iff hmedia hahead (h.legal _ (by simp)) hbehind,
    lastNames_behind_iff hB h.name h.value hbehind, Spelling.Plain, and_left_comm]

/-- **For which spellings of a Content-Type its boundary is read**, whatever the body. -/
theorem parseRequest_spelling_iff (hB : LegalBoundary B) {s : Spelling} (hs : s.Legal B) :
    ((∀ req : Request, req.header.fields.at' (lit "Content-Type") = .ok s.text →
        parseRequest req = parse req.body B) ↔ LastBoundary s.text B) ∧
      (s.Calm → (LastBoundary s.text B ↔ s.Plain)) :=
  ⟨parseRequest_iff hB.valid
    (hs.not_mem_text (by decide) (by decide) (by decide) (by decide))
    (hs.not_mem_text (by decide) (by decide) (by decide) (by decide)), hs.lastBoundary_iff hB⟩

/-- A Content-Type with no further parameter. -/
def formData (value : ParamValue) : Spelling where
  subtype := lit "form-data"
  ahead := []
  boundary := { before := [], after := lit " ", name := lit "boundary", value := value }
  behind := []

theorem legal_formData {value : ParamValue} (h : value.Denotes B) : (formData value).Legal B where
  subtype := show ∀ c ∈ lit "form-data", tokenChar c = true by decide +kernel
  legal p hp := by
    rw [List.mem_singleton.mp hp]
    exact ⟨fun c hc => (by cases hc), show ∀ c ∈ lit " ", blank c = true by decide +kernel,
      List.cons_ne_nil _ _, show ∀ c ∈ lit "boundary", tokenChar c = true by decide +kernel, B, h⟩
  further p hp := by cases hp
  name := rfl
  value := h

theorem legalBoundary_x : LegalBoundary (lit "X") :=
  ⟨by decide, by decide, by decide +kernel, by decide⟩

/-- `multipart/form-data; boundary=X` is read. -/
theorem parseRequest_spelling_iff_token :
    parseRequest (requestOf (formData (.token (lit "X"))).text (lit "--X\r\n--X--")) =
      parse (lit "--X\r\n--X--") (lit "X") := by
  have hs : (formData (.token (lit "X"))).Legal (lit "X") :=
    legal_formData ⟨rfl, by decide, by decide +kernel⟩
  have hcalm : (formData (.token (lit "X"))).Calm := by
    intro p hp raw hraw
    rw [List.mem_singleton.mp hp] at hraw
    cases hraw
  have h := parseRequest_spelling_iff legalBoundary_x hs
  exact h.1.mpr ((h.2 hcalm).mpr ⟨⟨_, rfl⟩, rfl, fun p hp => by cases hp⟩) (requestOf _ _) rfl

/-- A quoted boundary is read with its quotation marks, and no part is found. -/
theorem quoted_boundary_misread :
    (formData (.quoted (lit "X"))).text = lit "multipart/form-data; boundary=\"X\"" ∧
      ¬ ∀ (B : Str) (s : Spelling), LegalBoundary B → s.Legal B → ∀ req : Request,
        req.header.fields.at' (lit "Content-Type") = .ok s.text →
          parseRequest req = parse req.body B := by
  refine ⟨by decide, fun h => ?_⟩
  have := h (lit "X") (formData (.quoted (lit "X"))) legalBoundary_x
    (legal_formData (show unquote (lit "X") = some (lit "X") by decide))
    (requestOf (formData (.quoted (lit "X"))).text
      (lit "--X\r\nContent-Disposition: f\r\n\r\na\r\n--X--")) rfl
  revert this
  decide +kernel

end Multipart
end Html
end Malloy
