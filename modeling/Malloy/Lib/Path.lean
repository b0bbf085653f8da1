import Malloy.Lib.Split
import Mathlib.Data.List.TakeWhile

/-!
# POSIX path names

A path name is a list of characters; `sep` separates its components, of which `up` leads to the
parent directory. Names are compared by their components, without looking at a file system.

* `append`: `operator/` of `std::filesystem::path`. An absolute right operand replaces the left.
* `cString`: the name that a system call sees, up to the first terminator.
* `Inside base name`: `name` is `base` followed by components other than `up`.
* `inside_append` and `inside_iff_of_absolute` say when `append base p` is inside `base`;
  `inside_cString_append` is both, for the names that a system call sees.
-/

namespace Malloy
namespace Lib
namespace Path

variable {α : Type} [DecidableEq α] (sep nul : α) (up : List α)

def isAbsolute (p : List α) : Bool := p.head? == some sep

def hasFilename (p : List α) : Bool := p.getLast?.any (· != sep)

/-- `base / p`. -/
def append (base p : List α) : List α :=
  if isAbsolute sep p then p
  else if hasFilename sep base then base ++ sep :: p
  else base ++ p

/-- The components of a path. Adjacent separators, and those at the ends, count as one. -/
def components (p : List α) : List (List α) := (p.splitOn sep).filter (· ≠ [])

/-- The name up to the first terminator. -/
def cString (p : List α) : List α := p.takeWhile (· != nul)

/-- `name` is `base` followed by a relative path without an `up` component. -/
structure Inside (base name : List α) : Prop where
  root : isAbsolute sep name = isAbsolute sep base
  rest : ∃ rest, components sep name = components sep base ++ rest ∧ up ∉ rest

variable {sep nul up}

/-! ## Components -/

theorem components_append_sep (p q : List α) :
    components sep (p ++ sep :: q) = components sep p ++ components sep q := by
  unfold components
  rw [List.splitOn_append_cons_self, List.filter_append]

/-- A directory name (empty, or with a separator at its end) is followed by its entries. -/
theorem components_append {p : List α} (hp : hasFilename sep p = false) (q : List α) :
    components sep (p ++ q) = components sep p ++ components sep q := by
  rcases List.eq_nil_or_concat p with rfl | ⟨p, c, rfl⟩
  · rfl
  · have hc : c = sep := by simpa [hasFilename] using hp
    subst hc
    have hnil : components c ([] : List α) = [] := rfl
    rw [List.concat_eq_append, List.append_assoc, List.singleton_append, components_append_sep,
      components_append_sep, hnil, List.append_nil]

/-- A component of a path is a part of it. -/
theorem infix_of_mem_components {p c : List α} (h : c ∈ components sep p) : c <:+: p := by
  have hm : c ∈ pieces [sep] p := by
    rw [pieces_singleton]
    exact List.mem_of_mem_filter h
  exact infix_of_mem_pieces (List.cons_ne_nil _ _) hm

/-! ## Inside -/

theorem inside_refl (base : List α) : Inside sep up base base :=
  ⟨rfl, [], (List.append_nil _).symm, List.not_mem_nil⟩

theorem append_of_relative {p : List α} (hp : isAbsolute sep p = false) (base : List α) :
    append sep base p = if hasFilename sep base then base ++ sep :: p else base ++ p := by
  simp [append, hp]

theorem isAbsolute_append {base p : List α} (hp : isAbsolute sep p = false) :
    isAbsolute sep (append sep base p) = isAbsolute sep base := by
  rw [append_of_relative hp]
  cases base with
  | nil => exact hp
  | cons b base => split <;> rfl

/-- A relative path without an `up` component stays inside. -/
theorem inside_append {base p : List α} (hp : isAbsolute sep p = false)
    (hup : up ∉ components sep p) : Inside sep up base (append sep base p) := by
  refine ⟨isAbsolute_append hp, components sep p, ?_, hup⟩
  rw [append_of_relative hp]
  split
  · exact components_append_sep base p
  · rename_i hf
    exact components_append (by simpa using hf) p

/-- An absolute path is inside only where it spells out the base. -/
theorem inside_iff_of_absolute {base p : List α} (hp : isAbsolute sep p = true)
    (hup : up ∉ components sep p) :
    Inside sep up base p ↔
      isAbsolute sep base = true ∧ components sep base <+: components sep p := by
  constructor
  · rintro ⟨hroot, rest, hrest, -⟩
    exact ⟨hroot.symm.trans hp, rest, hrest.symm⟩
  · rintro ⟨hbase, rest, hrest⟩
    exact ⟨hp.trans hbase.symm, rest, hrest.symm,
      fun hm => hup (hrest ▸ List.mem_append_right _ hm)⟩

/-! ## The names that a system call sees -/

theorem cString_of_not_mem {p : List α} (h : nul ∉ p) : cString nul p = p :=
  List.takeWhile_eq_self_iff.mpr fun a ha => by simpa using fun he : a = nul => h (he ▸ ha)

/-- What follows the first terminator is not seen. -/
theorem cString_append_of_mem {p : List α} (h : nul ∈ p) (q : List α) :
    cString nul (p ++ q) = cString nul p := by
  induction p with
  | nil => cases h
  | cons c p ih =>
    by_cases hc : c = nul
    · simp [cString, hc]
    · have hm : nul ∈ p := (List.mem_cons.mp h).resolve_left fun he => hc he.symm
      simpa [cString, hc] using ih hm

theorem cString_append_of_not_mem {p : List α} (h : nul ∉ p) (q : List α) :
    cString nul (p ++ q) = p ++ cString nul q :=
  List.takeWhile_append_of_pos fun a ha => by simpa using fun he : a = nul => h (he ▸ ha)

theorem isAbsolute_cString (hn : sep ≠ nul) (p : List α) :
    isAbsolute sep (cString nul p) = isAbsolute sep p := by
  cases p with
  | nil => rfl
  | cons c p =>
    by_cases hc : c = nul
    · subst hc
      simp [cString, isAbsolute, Ne.symm hn]
    · simp [cString, isAbsolute, hc]

/-- A joined path is seen as the base alone, or as the base joined with what is seen of the rest. -/
theorem cString_append (hn : sep ≠ nul) (base : List α) {p : List α}
    (hp : isAbsolute sep p = false) :
    cString nul (append sep base p) = cString nul base ∨
      cString nul base = base ∧
        cString nul (append sep base p) = append sep base (cString nul p) := by
  have hp' : isAbsolute sep (cString nul p) = false := (isAbsolute_cString hn p).trans hp
  by_cases hb : nul ∈ base
  · left
    rw [append_of_relative hp]
    split <;> exact cString_append_of_mem hb _
  · right
    refine ⟨cString_of_not_mem hb, ?_⟩
    rw [append_of_relative hp, append_of_relative hp']
    split
    · rw [cString_append_of_not_mem hb]
      simp [cString, hn]
    · exact cString_append_of_not_mem hb p

/-- **When a join stays inside.** The right operand is relative, or it is an absolute path that
spells out the base. -/
theorem inside_cString_append (hn : sep ≠ nul) {base p : List α} (hup : ¬ up <:+: p) :
    Inside sep up (cString nul base) (cString nul (append sep base p)) ↔
      (isAbsolute sep p = true → isAbsolute sep base = true ∧
        components sep (cString nul base) <+: components sep (cString nul p)) := by
  have hup' : up ∉ components sep (cString nul p) := fun hm =>
    hup ((infix_of_mem_components hm).trans (List.takeWhile_prefix _).isInfix)
  cases hp : isAbsolute sep p with
  | true =>
    have happ : append sep base p = p := if_pos hp
    rw [happ, inside_iff_of_absolute ((isAbsolute_cString hn p).trans hp) hup',
      isAbsolute_cString hn]
    simp
  | false =>
    simp only [Bool.false_eq_true, false_implies, iff_true]
    rcases cString_append hn base hp with he | ⟨hb, he⟩
    · rw [he]
      exact inside_refl _
    · rw [he, hb]
      exact inside_append ((isAbsolute_cString hn p).trans hp) hup'

end Path
end Lib
end Malloy
