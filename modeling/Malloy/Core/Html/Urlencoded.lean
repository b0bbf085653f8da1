import Malloy.Core.Html.Form

/-!
# URL-encoded submissions

A browser sends `application/x-www-form-urlencoded` fields as pairs `name=value` that are joined
with `&`. Letters, digits and `*-._` stand for themselves, a space is sent as `+` and each other
byte as `%XX`, in names and values alike. `form::parse` decodes the `%XX` of values only.

* `percentDecode`: what `url_decode` computes, on the list of the characters (`urlDecode_eq`). The
  in-place loop writes behind what it has read.
* `encodeText`, `serialise`: what a browser sends.
* `parse_serialise`: what is parsed from it, for all fields.
* `parse_urlencoded_iff`: when these are the submitted fields.
-/

namespace Malloy

open Lib

/-! ## The loop of `url_decode` -/

/-- What `url_decode` makes of the rest of the string. A terminating zero follows it. -/
def percentDecode : Str → Except Exn Str
  | [] => .ok []
  | c :: rest =>
    if c = byte '%' then
      match rest with
      | [] => .error .outOfBounds
      | [high] => .ok [hex2dec high <<< 4 ||| hex2dec 0]
      | high :: low :: rest =>
        (percentDecode rest).map ((hex2dec high <<< 4 ||| hex2dec low) :: ·)
    else (percentDecode rest).map (c :: ·)

section

variable {str rest : Str} {c : UInt8} {i r w : Nat}

theorem charAt_of_drop (h : str.drop i = c :: rest) : charAt str i = .ok c := by
  have hi : i < str.length := by
    by_contra hge
    rw [List.drop_of_length_le (by omega)] at h
    cases h
  have hc : str[i]? = some c := by
    rw [← List.head?_drop, h]
    rfl
  rw [charAt, if_neg (by omega), hc]

/-- The terminating zero. -/
theorem charAt_length (str : Str) : charAt str str.length = .ok 0 := if_pos rfl

theorem charAt_past (h : str.length < i) : charAt str i = .error .outOfBounds := by
  rw [charAt, if_neg (by omega), List.getElem?_eq_none (by omega)]

theorem length_of_drop (h : str.drop i = rest) (hne : rest ≠ []) :
    str.length = i + rest.length := by
  have := congrArg List.length h
  have hpos := List.length_pos_iff.mpr hne
  rw [List.length_drop] at this
  omega

/-- What is written is behind what is read. -/
theorem map_percentDecode_set (hw : w < r) (hlen : w < str.length) (v : UInt8) :
    (percentDecode ((str.set w v).drop r)).map ((str.set w v).take (w + 1) ++ ·) =
      ((percentDecode (str.drop r)).map (v :: ·)).map (str.take w ++ ·) := by
  have htake : (str.set w v).take (w + 1) = str.take w ++ [v] := by
    have hl : (str.take w).length = w := List.length_take_of_le (by omega)
    rw [List.set_eq_take_append_cons_drop, if_pos hlen, List.take_append, hl,
      Nat.add_sub_cancel_left, List.take_of_length_le (by omega)]
    rfl
  rw [htake, List.drop_set_of_lt hw]
  cases percentDecode (str.drop r) with
  | error e => rfl
  | ok x => simp [Except.map]

/-- **The loop decodes the rest of the string behind what it has written.** -/
theorem urlDecodeLoop_eq {fuel : Nat} (hw : w ≤ r) (hf : str.length - r < fuel) :
    urlDecodeLoop fuel str r w = (percentDecode (str.drop r)).map (str.take w ++ ·) := by
  induction fuel generalizing str r w with
  | zero => omega
  | succ fuel ih =>
    unfold urlDecodeLoop
    cases hdrop : str.drop r with
    | nil =>
      have hnone : str[r]? = none := by
        rw [← List.head?_drop, hdrop]
        rfl
      rw [hnone]
      simp [percentDecode, Except.map]
    | cons c rest =>
      have hc : str[r]? = some c := by
        rw [← List.head?_drop, hdrop]
        rfl
      have hlen := length_of_drop hdrop (List.cons_ne_nil _ _)
      rw [List.length_cons] at hlen
      have hrest : str.drop (r + 1) = rest := by
        rw [← List.drop_drop, hdrop]
        rfl
      -- a round that reads up to `r'` and writes `v`
      have round : ∀ v r', r < r' → urlDecodeLoop fuel (str.set w v) r' (w + 1) =
          ((percentDecode (str.drop r')).map (v :: ·)).map (str.take w ++ ·) := fun v r' hr' => by
        rw [ih (by omega) (by rw [List.length_set]; omega),
          map_percentDecode_set (by omega) (by omega)]
      rw [hc, percentDecode.eq_def]
      dsimp only
      split
      · match rest with
        | [] =>
          have hr : str.length = r + 1 := hlen
          rw [← hr, charAt_length]
          simp only [bind, Except.bind, charAt_past (show str.length < r + 2 by omega)]
          rfl
        | [high] =>
          have hr : str.length = r + 2 := hlen
          rw [charAt_of_drop hrest, ← hr]
          simp only [bind, Except.bind, charAt_length]
          rw [round _ _ (by omega), List.drop_of_length_le (by omega)]
          rfl
        | high :: low :: rest =>
          have hrest' : str.drop (r + 2) = low :: rest := by
            rw [← List.drop_drop, hdrop]
            rfl
          have hrest'' : str.drop (r + 3) = rest := by
            rw [← List.drop_drop, hdrop]
            rfl
          rw [charAt_of_drop hrest]
          simp only [bind, Except.bind, charAt_of_drop hrest']
          rw [round _ _ (by omega), hrest'']
      · rw [round _ _ (by omega), hrest]

/-- **What `url_decode` computes.** -/
theorem urlDecode_eq (str : Str) : urlDecode str = percentDecode str := by
  rw [urlDecode, urlDecodeLoop_eq (le_refl 0) (by omega), List.drop_zero, List.take_zero]
  cases percentDecode str <;> rfl

end

namespace Html

open Http

/-! ## What a browser sends -/

/-- A character that stands for itself. -/
def literal (c : UInt8) : Bool := alphanumeric c || (lit "*-._").elem c

/-- A digit of a number below 16. -/
def hexDigit (n : UInt8) : UInt8 := if n < 10 then byte '0' + n else byte 'A' + (n - 10)

def encodeByte (c : UInt8) : Str :=
  if literal c then [c]
  else if c = byte ' ' then [byte '+']
  else [byte '%', hexDigit (c >>> 4), hexDigit (c &&& 15)]

def encodeText (x : Str) : Str := x.flatMap encodeByte

def encodePair (p : Str × Str) : Str := encodeText p.1 ++ ([byte '='] ++ encodeText p.2)

/-- The body of a submission of these names and values. -/
def serialise (ps : List (Str × Str)) : Str := [byte '&'].intercalate (ps.map encodePair)

/-- What the parser makes of a character of a value: it leaves the `+` of a space. -/
def received (c : UInt8) : UInt8 := if c = byte ' ' then byte '+' else c

section

variable {x : Str} {p : Str × Str} {ps : List (Str × Str)}

theorem hex2dec_hexDigit : ∀ c : UInt8,
    hex2dec (hexDigit (c >>> 4)) <<< 4 ||| hex2dec (hexDigit (c &&& 15)) = c :=
  forall_byte (P := fun c => hex2dec (hexDigit (c >>> 4)) <<< 4 |||
    hex2dec (hexDigit (c &&& 15)) = c) (by decide +kernel)

theorem percentDecode_cons {c : UInt8} (hc : c ≠ byte '%') (rest : Str) :
    percentDecode (c :: rest) = (percentDecode rest).map (c :: ·) := by
  rw [percentDecode.eq_def]
  exact if_neg hc

theorem percentDecode_encodeByte (c : UInt8) (rest : Str) :
    percentDecode (encodeByte c ++ rest) = (percentDecode rest).map (received c :: ·) := by
  unfold encodeByte received
  split
  · rename_i hc
    have hpercent : c ≠ byte '%' := by
      rintro rfl
      exact absurd hc (by decide)
    have hspace : c ≠ byte ' ' := by
      rintro rfl
      exact absurd hc (by decide)
    rw [if_neg hspace]
    exact percentDecode_cons hpercent rest
  · split
    · exact percentDecode_cons (by decide) rest
    · rw [percentDecode.eq_def]
      dsimp only [List.cons_append, List.nil_append]
      rw [if_pos rfl, hex2dec_hexDigit]

/-- **The values are decoded**, except for their spaces. -/
theorem urlDecode_encodeText (x : Str) : urlDecode (encodeText x) = .ok (x.map received) := by
  rw [urlDecode_eq]
  induction x with
  | nil => rfl
  | cons c x ih =>
    rw [encodeText, List.flatMap_cons, percentDecode_encodeByte]
    rw [encodeText] at ih
    rw [ih]
    rfl

theorem separators_not_mem_encodeByte : ∀ c, byte '&' ∉ encodeByte c ∧ byte '=' ∉ encodeByte c :=
  forall_byte (P := fun c => byte '&' ∉ encodeByte c ∧ byte '=' ∉ encodeByte c) (by decide +kernel)

theorem amp_not_mem_encodeText : byte '&' ∉ encodeText x := by
  intro hm
  obtain ⟨c, -, hc⟩ := List.mem_flatMap.mp hm
  exact (separators_not_mem_encodeByte c).1 hc

theorem eq_not_mem_encodeText : byte '=' ∉ encodeText x := by
  intro hm
  obtain ⟨c, -, hc⟩ := List.mem_flatMap.mp hm
  exact (separators_not_mem_encodeByte c).2 hc

theorem encodeByte_ne_nil (c : UInt8) : encodeByte c ≠ [] := by
  unfold encodeByte
  split
  · exact List.cons_ne_nil _ _
  · split <;> exact List.cons_ne_nil _ _

theorem encodeText_eq_nil_iff : encodeText x = [] ↔ x = [] := by
  cases x with
  | nil => exact iff_of_true rfl rfl
  | cons c x =>
    refine iff_of_false (fun h => ?_) (List.cons_ne_nil _ _)
    exact encodeByte_ne_nil c (List.append_eq_nil_iff.mp h).1

theorem length_le_encodeText (x : Str) : x.length ≤ (encodeText x).length := by
  induction x with
  | nil => exact Nat.le_refl 0
  | cons c x ih =>
    have hpos := List.length_pos_iff.mpr (encodeByte_ne_nil c)
    rw [encodeText, List.flatMap_cons, List.length_append, List.length_cons]
    rw [encodeText] at ih
    omega

/-- Only texts of literal characters are sent as they are. -/
theorem encodeText_eq_self_iff : encodeText x = x ↔ ∀ c ∈ x, literal c = true := by
  induction x with
  | nil => exact iff_of_true rfl fun c hc => by cases hc
  | cons c x ih =>
    have hcons : encodeText (c :: x) = encodeByte c ++ encodeText x := rfl
    rw [List.forall_mem_cons, ← ih, hcons]
    cases hc : literal c with
    | true =>
      rw [encodeByte, if_pos hc, List.singleton_append, List.cons.injEq]
      simp
    | false =>
      refine iff_of_false (fun h => ?_) fun h => by cases h.1
      rw [encodeByte, hc, if_neg Bool.false_ne_true] at h
      split at h
      · rename_i hspace
        rw [hspace] at h
        exact absurd (List.cons.inj h).1 (by decide)
      · -- one character became three
        have hlen := congrArg List.length h
        have hle := length_le_encodeText x
        simp only [List.length_append, List.length_cons, List.length_nil] at hlen
        omega

theorem received_eq_self_iff : x.map received = x ↔ byte ' ' ∉ x := by
  induction x with
  | nil => exact iff_of_true rfl List.not_mem_nil
  | cons c x ih =>
    have hc : received c = c ↔ byte ' ' ≠ c := by
      unfold received
      split
      · rename_i h
        rw [h]
        decide
      · rename_i h
        exact iff_of_true rfl (Ne.symm h)
    rw [List.map_cons, List.cons.injEq, ih, hc, List.mem_cons, not_or]

/-! ## What is parsed -/

theorem split_encodePair (hname : p.1 ≠ []) :
    split (encodePair p) (lit "=") =
      if p.2 = [] then [encodeText p.1] else [encodeText p.1, encodeText p.2] := by
  have hne : encodeText p.1 ≠ [] := fun h => hname (encodeText_eq_nil_iff.mp h)
  have hfree : ¬ [byte '='] <:+: encodeText p.2 := fun hi =>
    eq_not_mem_encodeText (hi.subset List.mem_cons_self)
  rw [encodePair, ← List.append_assoc, show lit "=" = [byte '='] from rfl,
    split_append_singleton eq_not_mem_encodeText hne]
  simp only [encodeText_eq_nil_iff, dropTrailing_pieces hfree]

theorem split_serialise (hnames : ∀ p ∈ ps, p.1 ≠ []) :
    split (serialise ps) (lit "&") = ps.map encodePair := by
  by_cases hps : ps = []
  · rw [hps]
    rfl
  · have hne : ps.map encodePair ≠ [] := fun h => hps (List.map_eq_nil_iff.mp h)
    have hpair : ∀ p ∈ ps, encodePair p ≠ [] := fun p hp h =>
      hnames p hp (encodeText_eq_nil_iff.mp (List.append_eq_nil_iff.mp h).1)
    have hnil : [] ∉ ps.map encodePair := by
      rintro hm
      obtain ⟨p, hp, he⟩ := List.mem_map.mp hm
      exact hpair p hp he
    have hfree : ∀ q ∈ ps.map encodePair, byte '&' ∉ q := by
      intro q hq
      obtain ⟨p, -, rfl⟩ := List.mem_map.mp hq
      unfold encodePair
      simp only [List.mem_append, not_or]
      exact ⟨amp_not_mem_encodeText, by decide, amp_not_mem_encodeText⟩
    have hpieces : pieces [byte '&'] (serialise ps) = ps.map encodePair :=
      pieces_singleton_eq_iff.mpr ⟨hne, hfree, rfl⟩
    have hbody : serialise ps ≠ [] := by
      intro h
      rw [h, pieces_eq_singleton (by simp)] at hpieces
      exact hnil (hpieces ▸ List.mem_singleton.mpr rfl)
    rw [show lit "&" = [byte '&'] from rfl, split_eq hbody (List.cons_ne_nil _ _), hpieces,
      dropLeading_of_not_mem hnil, dropTrailing_of_not_mem hnil]

/-- What is made of a field: it is lost when its value is empty. -/
def parsedField (p : Str × Str) : Option FormFieldData :=
  if p.2 = [] then none
  else some { name := encodeText p.1, content := p.2.map received }

/-- **What the decoder returns for a submission.** -/
theorem urlencodedFields_encodePair (hnames : ∀ p ∈ ps, p.1 ≠ []) :
    Form.urlencodedFields (ps.map encodePair) = .ok (ps.filterMap parsedField) := by
  induction ps with
  | nil => rfl
  | cons p ps ih =>
    obtain ⟨hp, hps⟩ := List.forall_mem_cons.mp hnames
    rw [List.map_cons, Form.urlencodedFields, split_encodePair hp, ih hps, List.filterMap_cons]
    by_cases hvalue : p.2 = []
    · rw [if_pos hvalue, parsedField, if_pos hvalue]
    · rw [if_neg hvalue, parsedField, if_neg hvalue]
      simp only [urlDecode_encodeText]
      rfl

end

/-- A submission of these names and values. -/
structure SubmitsUrlencoded (ps : List (Str × Str)) (req : Request) : Prop where
  contentType : req.header.fields.find (lit "Content-Type") =
    some (lit "application/x-www-form-urlencoded")
  body : req.body = serialise ps

/-- The name and the content of a parsed field. -/
def FormFieldData.pair (d : FormFieldData) : Str × Str := (d.name, d.content)

namespace Form

variable {ps : List (Str × Str)} {req : Request}

/-- **What is parsed from a submission.** -/
theorem parse_serialise (h : SubmitsUrlencoded ps req) (hnames : ∀ p ∈ ps, p.1 ≠ []) :
    parse req = .ok (some (ps.filterMap parsedField)) := by
  have hurl : parse req = parseUrlencoded req := by
    unfold parse encodingFromString
    rw [h.contentType, Option.getD_some]
    dsimp only
    rw [if_neg (by decide), if_pos rfl]
  rw [hurl, parseUrlencoded, h.body, split_serialise hnames, urlencodedFields_encodePair hnames]
  rfl

/-- A field arrives as it was sent. -/
def Arrives (p : Str × Str) : Prop :=
  (∀ c ∈ p.1, literal c = true) ∧ p.2 ≠ [] ∧ byte ' ' ∉ p.2

instance (p : Str × Str) : Decidable (Arrives p) := inferInstanceAs (Decidable (_ ∧ _))

theorem map_parsedField_iff {p : Str × Str} :
    (parsedField p).map FormFieldData.pair = some p ↔ Arrives p := by
  unfold parsedField Arrives
  split
  · rename_i hvalue
    exact iff_of_false (fun h => by cases h) fun h => h.2.1 hvalue
  · rename_i hvalue
    rw [← encodeText_eq_self_iff, ← received_eq_self_iff]
    simp only [Option.map_some, FormFieldData.pair, Option.some.injEq, Prod.ext_iff]
    exact ⟨fun h => ⟨h.1, hvalue, h.2⟩, fun h => ⟨h.1, h.2.2⟩⟩

/-- A list that keeps its length under `filterMap` loses no element. -/
theorem filterMap_eq_self_iff {α : Type} {f : α → Option α} {xs : List α} :
    xs.filterMap f = xs ↔ ∀ x ∈ xs, f x = some x := by
  induction xs with
  | nil => exact iff_of_true rfl fun x hx => by cases hx
  | cons x xs ih =>
    rw [List.forall_mem_cons, ← ih, List.filterMap_cons]
    cases hx : f x with
    | none =>
      refine iff_of_false (fun h => ?_) fun h => by cases h.1
      have hlen := congrArg List.length h
      have hle := List.length_filterMap_le f xs
      dsimp only at hlen
      rw [List.length_cons] at hlen
      omega
    | some y => simp

/-- The parsed fields are the submitted ones. -/
theorem parsed_iff {fd : FormData} (h : parse req = .ok (some fd)) :
    (∃ fd, parse req = .ok (some fd) ∧ fd.map FormFieldData.pair = ps) ↔
      fd.map FormFieldData.pair = ps := by
  constructor
  · rintro ⟨fd', hfd', he⟩
    rw [h] at hfd'
    cases hfd'
    exact he
  · exact fun he => ⟨fd, h, he⟩

/-- **When an URL-encoded submission is parsed to the submitted fields**: exactly if every name has
only characters that stand for themselves, and no value is empty or has a space. -/
theorem parse_urlencoded_iff (h : SubmitsUrlencoded ps req) (hnames : ∀ p ∈ ps, p.1 ≠ []) :
    (∃ fd, parse req = .ok (some fd) ∧ fd.map FormFieldData.pair = ps) ↔ ∀ p ∈ ps, Arrives p := by
  have hmap : (ps.filterMap parsedField).map FormFieldData.pair = ps ↔ ∀ p ∈ ps, Arrives p := by
    rw [List.map_filterMap, filterMap_eq_self_iff]
    exact forall₂_congr fun p _ => map_parsedField_iff
  rw [parsed_iff (parse_serialise h hnames), hmap]

/-- The request that submits these names and values. -/
def urlencoded (ps : List (Str × Str)) : Request where
  header := {
    method := .post
    target := lit "/"
    fields := [(lit "Content-Type", lit "application/x-www-form-urlencoded")] }
  body := serialise ps

/-- Bytes that have to be encoded arrive in a value. -/
theorem parse_urlencoded_iff_reserved :
    ∃ fd, parse (urlencoded [(lit "q", lit "a&b=%+"), (lit "q", [0, 255])]) = .ok (some fd) ∧
      fd.map FormFieldData.pair = [(lit "q", lit "a&b=%+"), (lit "q", [0, 255])] :=
  (parse_urlencoded_iff ⟨rfl, rfl⟩ (by decide)).mpr (by decide +kernel)

/-- A value with a space, a name with a space, and a value that is empty. -/
def spaced : List (Str × Str) :=
  [(lit "a", lit "x y"), (lit "b c", lit "1"), (lit "d", [])]

/-- A space arrives as `+`, an encoded name is not decoded, and an empty value loses its field. -/
theorem urlencoded_fields_lost :
    (¬ ∀ (ps : List (Str × Str)) (req : Request), SubmitsUrlencoded ps req →
      (∀ p ∈ ps, p.1 ≠ []) →
        ∃ fd, parse req = .ok (some fd) ∧ fd.map FormFieldData.pair = ps) ∧
      parse (urlencoded spaced) = .ok (some [{ name := lit "a", content := lit "x+y" },
        { name := lit "b+c", content := lit "1" }]) := by
  have hparse : parse (urlencoded spaced) =
      .ok (some [{ name := lit "a", content := lit "x+y" },
        { name := lit "b+c", content := lit "1" }]) := by decide +kernel
  refine ⟨fun h => ?_, hparse⟩
  obtain ⟨fd, hfd, hmap⟩ := h spaced (urlencoded spaced) ⟨rfl, rfl⟩ (by decide)
  rw [hparse] at hfd
  cases hfd
  exact absurd hmap (by decide)

end Form

end Html
end Malloy
