import Malloy.Core.Html.Cutting

/-!
# Where the multipart parser cuts a body

The boundary of a multipart body is at the start of a line. The parser looks for `--` and the
boundary anywhere: a content that has the text in the middle of a line is cut there.

* `mem_offsets_iff`: for a boundary that fits into a line, the parser cuts at every occurrence of
  the boundary line.
* `BeginsLines`: what is said of the occurrences in a body. `delimiters_lineStart_iff`: it holds
  exactly if the parser cuts only at the start of a line.
-/

namespace Malloy
namespace Html
namespace Multipart

open Http Lib

variable {body boundary : Str}

/-- The position is at the start of the body, or behind a line end. -/
def AtLineStart (body : Str) (pos : Nat) : Prop := pos = 0 ∨ crlf <:+ body.take pos

instance (body : Str) (pos : Nat) : Decidable (AtLineStart body pos) :=
  inferInstanceAs (Decidable (_ ∨ _))

/-- Every boundary line of the body begins a line, and so does the first closing line behind the
last of them. Nothing is said of a body that has not both. -/
def BeginsLines (body boundary : Str) : Prop :=
  ∀ pre raw rest,
    body = pre ++ boundaryLine boundary ++ (raw ++ boundaryLineLast boundary ++ rest) →
    ¬ boundaryLine boundary <:+: raw ++ boundaryLineLast boundary ++ rest →
    ¬ boundaryLineLast boundary <:+: raw ++ (boundaryLineLast boundary).dropLast →
    (∀ x y, body = x ++ boundaryLine boundary ++ y → x = [] ∨ crlf <:+ x) ∧
      (raw = [] ∨ crlf <:+ raw)

/-! ## Every occurrence is a cut -/

theorem boundaryLine_sep (hb : ValidBoundary boundary) :
    ∃ d, byte '\n' ∉ d ∧ boundaryLine boundary = d ++ [byte '\n'] := by
  refine ⟨marker boundary ++ [byte '\r'], ?_, boundaryLine_eq boundary⟩
  rw [List.mem_append, not_or]
  exact ⟨lf_not_mem_marker hb, by decide⟩

theorem offsets_add (lineSize a b : Nat) (raws : List Str) :
    offsets lineSize (a + b) raws = (offsets lineSize b raws).map (a + ·) := by
  induction raws generalizing b with
  | nil => rfl
  | cons raw raws ih =>
    rw [offsets, offsets, Nat.add_assoc, ih]
    rfl

/-- **The cuts are the occurrences of the boundary line.** -/
theorem mem_offsets_iff (hb : ValidBoundary boundary) {p : Str} {ps : List Str}
    (hp : pieces (boundaryLine boundary) body = p :: ps) {n : Nat} :
    n ∈ offsets (boundaryLine boundary).length p.length ps ↔
      ∃ x y, body = x ++ boundaryLine boundary ++ y ∧ x.length = n := by
  obtain ⟨d, hd, hline⟩ := boundaryLine_sep hb
  induction body using pieces_induction (@boundaryLine_ne_nil boundary)
    generalizing p ps n with
  | last s h =>
    rw [pieces_of_none h] at hp
    cases hp
    refine iff_of_false (List.not_mem_nil) ?_
    rintro ⟨x, y, hs, -⟩
    exact dropInfix?_eq_none.mp h ⟨x, y, hs.symm⟩
  | cut s q r h ih =>
    rw [pieces_of_some boundaryLine_ne_nil h] at hp
    obtain ⟨rfl, hps⟩ := List.cons.inj hp
    obtain ⟨p', ps', hps'⟩ := List.exists_cons_of_ne_nil (pieces_ne_nil (boundaryLine boundary) r)
    rw [hps'] at hps
    subst hps
    have hs := dropInfix?_append h
    rw [offsets, List.mem_cons, ← Nat.add_assoc, offsets_add, List.mem_map]
    constructor
    · rintro (rfl | ⟨m, hm, rfl⟩)
      · exact ⟨q, r, hs, rfl⟩
      · obtain ⟨x, y, hr, rfl⟩ := (ih hps').mp hm
        refine ⟨q ++ boundaryLine boundary ++ x, y, ?_, by simp; omega⟩
        rw [hs, hr]
        simp
    · rintro ⟨x, y, hx, rfl⟩
      have hfirst : ¬ d ++ [byte '\n'] <:+: q ++ d := by
        have := dropInfix?_first boundaryLine_ne_nil h
        rwa [hline, List.dropLast_concat] at this
      have hxq : x ++ (d ++ [byte '\n']) ++ y = q ++ (d ++ [byte '\n']) ++ r := by
        rw [← hline, ← hx, hs]
      rcases occurrence_cases hd hfirst hxq with ⟨rfl, -⟩ | ⟨m, rfl, rfl⟩
      · exact .inl rfl
      · refine .inr ⟨m.length, (ih hps').mpr ⟨m, y, by rw [hline], rfl⟩, ?_⟩
        rw [← hline]
        simp
        omega

/-! ## The last boundary line, and the closing line -/

/-- Behind the last cut there is no boundary line. -/
theorem last_boundary {p raw : Str} {raws : List Str}
    (hp : pieces (boundaryLine boundary) body = p :: raw :: raws) :
    ∃ pre q, body = pre ++ boundaryLine boundary ++ q ∧ ¬ boundaryLine boundary <:+: q ∧
      (offsets (boundaryLine boundary).length p.length (raw :: raws)).getLast? =
        some pre.length := by
  induction body using pieces_induction (@boundaryLine_ne_nil boundary)
    generalizing p raw raws with
  | last s h =>
    rw [pieces_of_none h] at hp
    cases hp
  | cut s q r h ih =>
    have hs := dropInfix?_append h
    rw [pieces_of_some boundaryLine_ne_nil h] at hp
    obtain ⟨rfl, hps⟩ := List.cons.inj hp
    cases raws with
    | nil =>
      refine ⟨q, r, hs, fun hi => ?_, rfl⟩
      cases hr : r.dropInfix? (boundaryLine boundary) with
      | none => exact dropInfix?_eq_none.mp hr hi
      | some x =>
        rw [pieces_of_some boundaryLine_ne_nil hr] at hps
        exact pieces_ne_nil _ _ (List.cons.inj hps).2
    | cons raw' raws =>
      obtain ⟨pre, q', hr, hfree, hlast⟩ := ih hps
      refine ⟨q ++ boundaryLine boundary ++ pre, q', by rw [hs, hr]; simp, hfree, ?_⟩
      rw [offsets, ← Nat.add_assoc, offsets_add, List.getLast?_cons, List.getLast?_map, hlast]
      simp
      omega

/-- A body with a boundary line has a last one. -/
theorem exists_last_boundary (h : boundaryLine boundary <:+: body) :
    ∃ pre q, body = pre ++ boundaryLine boundary ++ q ∧ ¬ boundaryLine boundary <:+: q := by
  obtain ⟨p, ps, hp⟩ := List.exists_cons_of_ne_nil (pieces_ne_nil (boundaryLine boundary) body)
  cases ps with
  | nil =>
    have hbody := eq_append_flatMap_of_pieces boundaryLine_ne_nil hp
    rw [List.flatMap_nil, List.append_nil] at hbody
    have hfree : ¬ boundaryLine boundary <:+: p :=
      not_infix_of_mem_pieces boundaryLine_ne_nil (hp ▸ List.mem_cons_self)
    exact absurd (hbody ▸ h) hfree
  | cons raw raws =>
    obtain ⟨pre, q, hbody, hfree, -⟩ := last_boundary hp
    exact ⟨pre, q, hbody, hfree⟩

/-- There is one last boundary line. -/
theorem last_boundary_unique (hb : ValidBoundary boundary) {pre q pre' q' : Str}
    (h : pre ++ boundaryLine boundary ++ q = pre' ++ boundaryLine boundary ++ q')
    (hq : ¬ boundaryLine boundary <:+: q) (hq' : ¬ boundaryLine boundary <:+: q') :
    pre = pre' ∧ q = q' := by
  obtain ⟨d, hd, hline⟩ := boundaryLine_sep hb
  rw [hline] at h hq hq'
  have hpieces := congrArg (pieces (d ++ [byte '\n'])) h
  rw [pieces_sep_append hd, pieces_sep_append hd, pieces_eq_singleton hq,
    pieces_eq_singleton hq'] at hpieces
  obtain rfl : q = q' := List.singleton_inj.mp (List.append_inj' hpieces rfl).2
  exact ⟨List.append_cancel_right (List.append_cancel_right h), rfl⟩

/-- No closing line begins in a boundary line. -/
theorem not_infix_boundaryLine_append (hb : ValidBoundary boundary) {q : Str}
    (hq : ¬ boundaryLineLast boundary <:+: q) :
    ¬ boundaryLineLast boundary <:+: boundaryLine boundary ++ q := by
  intro hi
  rw [boundaryLine_eq, List.append_assoc, List.singleton_append] at hi
  rcases infix_of_not_mem (lf_not_mem_boundaryLineLast hb) hi with hi | hi
  · have hle := hi.length_le
    rw [boundaryLineLast_eq] at hle
    simp only [List.length_append, List.length_singleton] at hle
    omega
  · exact hq hi

theorem boundaryLineLast_ne_nil : boundaryLineLast boundary ≠ [] := by
  rw [boundaryLineLast_eq]
  exact List.append_ne_nil_of_right_ne_nil _ (List.cons_ne_nil _ _)

/-- There is one first closing line. -/
theorem first_closing_unique {raw rest raw' rest' : Str}
    (h : raw ++ boundaryLineLast boundary ++ rest = raw' ++ boundaryLineLast boundary ++ rest')
    (hfirst : ¬ boundaryLineLast boundary <:+: raw ++ (boundaryLineLast boundary).dropLast)
    (hfirst' : ¬ boundaryLineLast boundary <:+: raw' ++ (boundaryLineLast boundary).dropLast) :
    raw = raw' := by
  have hdrop := congrArg (List.dropInfix? · (boundaryLineLast boundary)) h
  simp only [dropInfix?_of_first boundaryLineLast_ne_nil hfirst,
    dropInfix?_of_first boundaryLineLast_ne_nil hfirst'] at hdrop
  exact (Prod.mk.inj (Option.some.inj hdrop)).1

/-- The delimiters of a body with a boundary line: the cuts and the first closing line behind the
last one, or none if there is no closing line. -/
theorem delimiters_cases (hb : ValidBoundary boundary) {pre q : Str}
    (hbody : body = pre ++ boundaryLine boundary ++ q) (hfree : ¬ boundaryLine boundary <:+: q) :
    (¬ boundaryLineLast boundary <:+: q ∧ delimiters body boundary = []) ∨
      ∃ raw rest, q = raw ++ boundaryLineLast boundary ++ rest ∧
        ¬ boundaryLineLast boundary <:+: raw ++ (boundaryLineLast boundary).dropLast ∧
        ∀ pos, pos ∈ delimiters body boundary ↔
          (∃ x y, body = x ++ boundaryLine boundary ++ y ∧ x.length = pos) ∨
            pos = (pre ++ boundaryLine boundary ++ raw).length := by
  obtain ⟨d, hd, hline⟩ := boundaryLine_sep hb
  have hpieces : pieces (boundaryLine boundary) body =
      pieces (boundaryLine boundary) pre ++ [q] := by
    rw [hbody, ← pieces_eq_singleton hfree, hline, pieces_sep_append hd]
  obtain ⟨p, ps, hp⟩ := List.exists_cons_of_ne_nil (pieces_ne_nil (boundaryLine boundary) pre)
  obtain ⟨raw', raws, hps⟩ := List.exists_cons_of_ne_nil
    (List.append_ne_nil_of_right_ne_nil ps (List.cons_ne_nil q []))
  rw [hp, List.cons_append, hps] at hpieces
  obtain ⟨pre', q', hbody', hfree', hlast⟩ := last_boundary hpieces
  obtain ⟨rfl, rfl⟩ := last_boundary_unique hb (hbody.symm.trans hbody') hfree hfree'
  have hdrop : body.drop pre.length = boundaryLine boundary ++ q := by
    rw [hbody, List.append_assoc, List.drop_left]
  rw [delimiters_of_pieces hb.ne_nil hpieces, hlast]
  dsimp only
  cases hq : q.dropInfix? (boundaryLineLast boundary) with
  | none =>
    have hno := dropInfix?_eq_none.mp hq
    refine .inl ⟨hno, ?_⟩
    rw [find_of_not_isInfix (hdrop ▸ not_infix_boundaryLine_append hb hno)]
  | some x =>
    obtain ⟨raw, rest⟩ := x
    have hsplit := dropInfix?_append hq
    have hfirst := dropInfix?_first boundaryLineLast_ne_nil hq
    have hfind : body.find (boundaryLineLast boundary) pre.length =
        some (pre.length + (boundaryLine boundary ++ raw).length) := by
      apply find_of_first (r := rest) boundaryLineLast_ne_nil
      · rw [hdrop, hsplit]
        simp
      · rw [List.append_assoc]
        exact not_infix_boundaryLine_append hb hfirst
    refine .inr ⟨raw, rest, hsplit, hfirst, fun pos => ?_⟩
    rw [hfind]
    dsimp only
    rw [List.mem_append, List.mem_singleton, mem_offsets_iff hb hpieces, List.append_assoc,
      @List.length_append _ pre]

/-! ## Where the cuts are -/

/-- A position behind a boundary line and a text is at the start of a line if the text ends one. -/
theorem atLineStart_closing {pre raw rest : Str} :
    AtLineStart (pre ++ boundaryLine boundary ++ raw ++ rest)
      (pre ++ boundaryLine boundary ++ raw).length ↔ raw = [] ∨ crlf <:+ raw := by
  have hne : (pre ++ boundaryLine boundary ++ raw).length ≠ 0 := by
    have := List.length_pos_iff.mpr (@boundaryLine_ne_nil boundary)
    simp only [List.length_append]
    omega
  have hline : pre ++ boundaryLine boundary ++ raw = (pre ++ marker boundary) ++ crlf ++ raw := by
    simp [boundaryLine, marker]
  unfold AtLineStart
  rw [List.take_left, or_iff_right hne, hline]
  exact pair_suffix_append_iff (by decide)

theorem atLineStart_left {x y : Str} : AtLineStart (x ++ y) x.length ↔ x = [] ∨ crlf <:+ x := by
  unfold AtLineStart
  rw [List.take_left, List.length_eq_zero_iff]

/-- **The parser cuts only at the start of a line exactly if every boundary line of the body begins
a line, and so does the closing line behind the last one.** -/
theorem delimiters_lineStart_iff (hb : ValidBoundary boundary) (body : Str) :
    (∀ pos ∈ delimiters body boundary, AtLineStart body pos) ↔ BeginsLines body boundary := by
  by_cases hinfix : boundaryLine boundary <:+: body
  · obtain ⟨pre, q, hbody, hfree⟩ := exists_last_boundary hinfix
    rcases delimiters_cases hb hbody hfree with ⟨hno, hdel⟩ | ⟨raw, rest, rfl, hfirst, hmem⟩
    · rw [hdel]
      refine iff_of_true (fun pos hpos => by cases hpos) fun pre' raw rest h hfree' _ => ?_
      obtain ⟨-, rfl⟩ := last_boundary_unique hb (hbody.symm.trans h) hfree hfree'
      exact absurd ⟨raw, rest, rfl⟩ hno
    · have hclosing : AtLineStart body (pre ++ boundaryLine boundary ++ raw).length ↔
          raw = [] ∨ crlf <:+ raw := by
        rw [hbody, List.append_assoc raw, ← List.append_assoc _ raw]
        exact atLineStart_closing
      have hlines : (∀ pos, (∃ x y, body = x ++ boundaryLine boundary ++ y ∧ x.length = pos) →
          AtLineStart body pos) ↔
            ∀ x y, body = x ++ boundaryLine boundary ++ y → x = [] ∨ crlf <:+ x := by
        constructor
        · intro h x y hxy
          have := h x.length ⟨x, y, hxy, rfl⟩
          rwa [hxy, List.append_assoc, atLineStart_left] at this
        · rintro h pos ⟨x, y, hxy, rfl⟩
          rw [hxy, List.append_assoc, atLineStart_left]
          exact h x y hxy
      simp only [hmem, or_imp, forall_and, forall_eq, hclosing, hlines]
      constructor
      · intro h pre' raw' rest' hbody' hfree' hfirst'
        obtain ⟨-, hq⟩ := last_boundary_unique hb (hbody.symm.trans hbody') hfree hfree'
        rw [← first_closing_unique hq hfirst hfirst']
        exact h
      · intro h
        exact h pre raw rest hbody hfree hfirst
  · have hdel : delimiters body boundary = [] := by
      rw [delimiters_of_pieces hb.ne_nil (pieces_eq_singleton hinfix)]
      rfl
    rw [hdel]
    exact iff_of_true (fun pos hpos => by cases hpos) fun pre raw rest h _ _ =>
      absurd ⟨pre, _, h.symm⟩ hinfix

/-- The boundary in the middle of a line of the content does no harm by itself. -/
theorem delimiters_lineStart_iff_midline :
    BeginsLines (lit "--X\r\nContent-Disposition: f\r\n\r\nsee --X here\r\n--X--") (lit "X") :=
  (delimiters_lineStart_iff ⟨by decide, by decide, by decide⟩ _).mp (by decide +kernel)

/-- A content that has the closing line in the middle of a line is cut there. -/
theorem midline_closing_cuts :
    (¬ ∀ body boundary, ValidBoundary boundary →
      ∀ pos ∈ delimiters body boundary, AtLineStart body pos) ∧
      parse (lit "--X\r\nContent-Disposition: f\r\n\r\na--X--b\r\n--X--") (lit "X") =
        .ok [{ disposition := lit "f", content := lit "a" }] := by
  refine ⟨fun h => ?_, by decide +kernel⟩
  have hpos := h (lit "--X\r\nContent-Disposition: f\r\n\r\na--X--b\r\n--X--") (lit "X")
    ⟨by decide, by decide, by decide⟩ 32 (by decide +kernel)
  exact absurd hpos (by decide +kernel)

end Multipart
end Html
end Malloy
