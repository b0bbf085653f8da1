import Malloy.Lib.Split
import Mathlib.Algebra.Group.Nat.Defs

/-!
# Byte strings: `std::string`, `std::string_view`

A string is the list of its bytes. The member functions that the source uses are list functions:
`starts_with` is `List.isPrefixOf` (`startsWith`), `contains`, `find` and `substr` are below.
`substr(pos)` throws `std::out_of_range` when `pos` is past the end, so it is an `Except`; the two
calls `substr(pos, n)` whose `pos` the caller has just compared with the size are `take`/`drop`. The
other ones are `substrN`, with `n` as a `std::size_t` (`sizeSub`).
-/

namespace Malloy

abbrev Str := List UInt8

/-- A string literal of the source. -/
def lit (s : String) : Str := s.toList.map fun c => c.val.toUInt8

/-- The byte of a character literal. -/
def byte (c : Char) : UInt8 := c.val.toUInt8

/-- The letters and digits of ASCII. -/
def alphanumeric (c : UInt8) : Bool :=
  (byte 'a' ≤ c && c ≤ byte 'z') || (byte 'A' ≤ c && c ≤ byte 'Z') || (byte '0' ≤ c && c ≤ byte '9')

theorem forall_byte {P : UInt8 → Prop} (h : ∀ n : Fin 256, P (UInt8.ofFin n)) (c : UInt8) : P c :=
  h c.toFin

/-- What a call of the library throws. -/
inductive Exn where
  /-- `std::out_of_range`, of `substr`. -/
  | outOfRange
  /-- `std::regex_error`, of the `std::regex` constructor. -/
  | regexError
  /-- `std::filesystem::filesystem_error`. -/
  | filesystemError
  /-- `std::logic_error`. -/
  | logicError (what : Str)
  /-- `std::invalid_argument`, of `prepare_payload`. -/
  | invalidArgument
  /-- A null `std::shared_ptr` is dereferenced (not an exception: the call does not return). -/
  | nullDeref
  /-- A string is read past its end (not an exception either). -/
  | outOfBounds
  deriving DecidableEq

/-- `a - b` of a `std::size_t`: it wraps below zero. -/
def sizeSub (a b : Nat) : Nat := if b ≤ a then a - b else 2 ^ 64 + a - b

@[simp] theorem sizeSub_add (a b : Nat) : sizeSub (a + b) a = b := by
  unfold sizeSub
  rw [if_pos (Nat.le_add_right a b), Nat.add_sub_cancel_left]

namespace Str

/-- `s.starts_with(p)`. -/
def startsWith (s p : Str) : Bool := p.isPrefixOf s

theorem startsWith_iff {s p : Str} : s.startsWith p = true ↔ p <+: s := List.isPrefixOf_iff_prefix

/-- `s.find(d, pos)`, where `none` is `npos`. -/
def find (s d : Str) (pos : Nat) : Option Nat :=
  if s.length < pos then none else ((s.drop pos).dropInfix? d).map fun r => pos + r.1.length

/-- `s.find(d) != npos`. -/
def contains (s d : Str) : Bool := (s.find d 0).isSome

theorem contains_iff {s d : Str} : s.contains d = true ↔ d <:+: s := by
  have h : s.contains d = (s.dropInfix? d).isSome := by simp [contains, find]
  rw [h]
  cases hs : s.dropInfix? d with
  | none => simp [Lib.dropInfix?_eq_none.mp hs]
  | some r => exact ⟨fun _ => ⟨r.1, r.2, (Lib.dropInfix?_append hs).symm⟩, fun _ => rfl⟩

/-- `s.substr(pos)`. -/
def substr (s : Str) (pos : Nat) : Except Exn Str :=
  if pos ≤ s.length then .ok (s.drop pos) else .error .outOfRange

/-- `s.substr(pos, n)`. -/
def substrN (s : Str) (pos n : Nat) : Except Exn Str :=
  if pos ≤ s.length then .ok ((s.drop pos).take n) else .error .outOfRange

theorem substr_of_startsWith {s p : Str} (h : s.startsWith p = true) :
    s.substr p.length = .ok (s.drop p.length) :=
  if_pos (startsWith_iff.mp h).length_le

end Str

end Malloy
