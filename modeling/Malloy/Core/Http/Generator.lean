import Malloy.Core.Http.Message
import Malloy.Lib.Path
import Mathlib.Data.List.DropRight

/-!
# `malloy::http::generator` (`core/http/generator.cpp`)

The responses that the library makes itself. `file` is the one that reads the file system: it
tests a path and opens it, and the file system is a parameter (`Fs`). A system call sees a path up
to its first NUL (`c_str()`), so the calls that `file` makes are recorded under that name.

`file_confined_iff` says for which arguments every call of `file` is lexically inside the base
path: a second leading slash makes the rest an absolute path, which replaces the base path.
-/

namespace Malloy
namespace Http

open Lib

/-! ## The file system -/

/-- A call of the file system, by the name that it sees. -/
inductive FsCall where
  | isRegularFile (name : Str)
  | openFile (name : Str)
  deriving DecidableEq

def FsCall.name : FsCall → Str
  | isRegularFile name => name
  | openFile name => name

structure Fs where
  /-- `std::filesystem::is_regular_file`, which may throw. -/
  isRegularFile : Str → Except Exn Bool
  /-- The message of the error with which the file cannot be opened. -/
  openError : Str → Option Str

/-- `path / rel`. -/
def pathAppend (path rel : Str) : Str := Path.append (byte '/') path rel

/-- `path.c_str()`, as a system call reads it. -/
def cStr (path : Str) : Str := Path.cString 0 path

/-- `path.filename()`. -/
def filename (path : Str) : Str := path.rtakeWhile (· != byte '/')

/-- `path.extension()`: from the last dot of the filename, unless that is its first byte. -/
def extension (path : Str) : Str :=
  let name := filename path
  let suffix := name.rtakeWhile (· != byte '.')
  let front := name.rdropWhile (· != byte '.')
  if name = lit ".." ∨ front.length ≤ 1 then [] else byte '.' :: suffix

/-! ## `mime_type` (`core/utils.hpp`) -/

/-- The table of `mime_type`, in the order of the source. -/
def mimeTypes : List (Str × Str) :=
  [(lit ".7z", lit "application/x-7z-compressed"), (lit ".bin", lit "application/octet-stream"),
    (lit ".bmp", lit "image/bmp"), (lit ".bz", lit "application/x-bzip"),
    (lit ".bz2", lit "application/x-bzip2"), (lit ".css", lit "text/css"),
    (lit ".css.min", lit "text/css"), (lit ".csv", lit "text/csv"), (lit ".gif", lit "image/gif"),
    (lit ".gz", lit "application/gzip"), (lit ".ico", lit "image/vnd.microsoft.icon"),
    (lit ".htm", lit "text/html"), (lit ".html", lit "text/html"), (lit ".mp3", lit "audio/mpeg"),
    (lit ".mp4", lit "video/mp4"), (lit ".mpeg", lit "video/mpeg"),
    (lit ".rar", lit "application/vnd.rar"), (lit ".php", lit "text/html"),
    (lit ".txt", lit "text/plain"), (lit ".js", lit "application/javascript"),
    (lit ".json", lit "application/json"), (lit ".xml", lit "application/xml"),
    (lit ".swf", lit "application/x-shockwave-flash"), (lit ".flv", lit "video/x-flv"),
    (lit ".png", lit "image/png"), (lit ".jpe", lit "image/jpeg"), (lit ".jpeg", lit "image/jpeg"),
    (lit ".jpg", lit "image/jpeg"), (lit ".tiff", lit "image/tiff"), (lit ".tif", lit "image/tiff"),
    (lit ".svg", lit "image/svg+xml"), (lit ".svgz", lit "image/svg+xml"),
    (lit ".zip", lit "application/zip")]

def mimeType (path : Str) : Str :=
  (mimeTypes.lookup (extension path)).getD (lit "application/octet-stream")

/-! ## Responses -/

def contentType : Str := lit "Content-Type"

def ok : Response := { status := 200 }

def redirect (code : Nat) (location : Str) : Response :=
  ({ status := code } : Response).set (lit "Location") location

/-- A response of the library's own errors: a status and a text. -/
def errorResponse (status : Nat) (text : Str) : Response :=
  ({ status := status, body := .string text } : Response).set contentType (lit "text/html")

def badRequest (reason : Str) : Response := errorResponse 400 reason

def notFound (resource : Str) : Response :=
  errorResponse 404 (lit "The resource '" ++ resource ++ lit "' was not found.")

def serverError (what : Str) : Response :=
  errorResponse 500 (lit "An error occurred: '" ++ what ++ lit "'")

/-- The leading slash of `rel_path`, if any, dropped. -/
def dropSlash (relPath : Str) : Str :=
  if relPath.startsWith (lit "/") then relPath.drop 1 else relPath

/-- `generator::file(storage_base_path, rel_path)`, with the calls that it makes. -/
def file (fs : Fs) (storageBasePath relPath : Str) : List FsCall × Except Exn Response :=
  -- Check for relative paths
  if relPath.contains (lit "..") then
    ([], .ok (badRequest (lit "resource path must not contain \"..\"")))
  else
    let relPath := dropSlash relPath
    let path := pathAppend storageBasePath relPath
    let name := cStr path
    match fs.isRegularFile name with
    | .error e => ([.isRegularFile name], .error e)
    -- Check whether this is a valid file path
    | .ok false => ([.isRegularFile name], .ok (notFound relPath))
    | .ok true =>
      let resp : Response := ({ status := 200, body := .file path } : Response).set contentType
        (mimeType path)
      ([.isRegularFile name, .openFile name],
        match fs.openError name with
        | some message => .ok (serverError message)
        | none => .ok resp)

/-- The test of `file` returns normally, if it is made. -/
def TestReturns (fs : Fs) (base p : Str) : Prop :=
  p.contains (lit "..") = true ∨
    ∃ b, fs.isRegularFile (cStr (pathAppend base (dropSlash p))) = .ok b

/-- **`file` has a response exactly if its test returns**: the error of `open` is answered, the one
of `is_regular_file` is thrown. -/
theorem file_ok_iff (fs : Fs) (base p : Str) :
    (∃ resp, (file fs base p).2 = .ok resp) ↔ TestReturns fs base p := by
  unfold file TestReturns
  by_cases hc : p.contains (lit "..") = true
  · rw [if_pos hc]
    exact ⟨fun _ => .inl hc, fun _ => ⟨_, rfl⟩⟩
  · rw [if_neg hc]
    dsimp only
    cases hb : fs.isRegularFile (cStr (pathAppend base (dropSlash p))) with
    | error e => simp [hc]
    | ok b =>
      refine ⟨fun _ => .inr ⟨b, rfl⟩, fun _ => ?_⟩
      cases b with
      | false => exact ⟨_, rfl⟩
      | true =>
        dsimp only
        split <;> exact ⟨_, rfl⟩

/-! ## Confinement -/

/-- The path is the base path followed by a relative path without a `..` component. -/
abbrev Inside (base name : Str) : Prop := Path.Inside (byte '/') (lit "..") base name

/-- Every call of the file system is inside the base path. -/
def Confined (base : Str) (calls : List FsCall) : Prop :=
  ∀ call ∈ calls, Inside (cStr base) call.name

/-- A second leading slash makes the rest of `p` an absolute path. -/
def IsAbsoluteRel (p : Str) : Prop := lit "//" <+: p

/-- The path spells out the whole base path. -/
def SpellsOut (base path : Str) : Prop :=
  Path.isAbsolute (byte '/') base = true ∧
    Path.components (byte '/') (cStr base) <+: Path.components (byte '/') (cStr path)

/-- The arguments for which `file` stays inside. -/
def StaysInside (base p : Str) : Prop :=
  p.contains (lit "..") = true ∨ (IsAbsoluteRel p → SpellsOut base (dropSlash p))

theorem isAbsolute_dropSlash (p : Str) :
    Path.isAbsolute (byte '/') (dropSlash p) = true ↔ IsAbsoluteRel p := by
  have hs : lit "/" = [byte '/'] := rfl
  have hss : lit "//" = [byte '/', byte '/'] := rfl
  unfold IsAbsoluteRel dropSlash Str.startsWith
  rw [hs, hss]
  cases p with
  | nil => simp [Path.isAbsolute]
  | cons a p =>
    by_cases ha : byte '/' = a
    · subst ha
      cases p with
      | nil => simp [Path.isAbsolute]
      | cons b p => simpa [Path.isAbsolute] using eq_comm
    · simp [Path.isAbsolute, ha, Ne.symm ha]

/-- `file` tests one name, if it does not answer 400, and opens no other. -/
theorem file_calls (fs : Fs) (base p : Str) :
    (p.contains (lit "..") = true ∧ (file fs base p).1 = []) ∨
    (p.contains (lit "..") = false ∧
      let name := cStr (pathAppend base (dropSlash p))
      ((file fs base p).1 = [.isRegularFile name] ∨
        (file fs base p).1 = [.isRegularFile name, .openFile name])) := by
  unfold file
  by_cases hc : p.contains (lit "..") = true
  · exact .inl ⟨hc, by rw [if_pos hc]⟩
  · refine .inr ⟨by simpa using hc, ?_⟩
    rw [if_neg hc]
    dsimp only
    split
    · exact .inl rfl
    · exact .inl rfl
    · exact .inr rfl

theorem not_infix_dropSlash {p : Str} (h : p.contains (lit "..") = false) :
    ¬ lit ".." <:+: dropSlash p := by
  intro hi
  have hs : dropSlash p <:+: p := by
    unfold dropSlash
    split
    · exact (List.drop_suffix 1 p).isInfix
    · exact List.infix_refl p
  rw [Str.contains_iff.mpr (hi.trans hs)] at h
  cases h

/-- **When `file` stays inside its base path**: exactly if it answers 400, or `p` does not start
with a second slash, or what is left of `p` spells out the base path. -/
theorem file_confined_iff (fs : Fs) (base p : Str) :
    Confined base (file fs base p).1 ↔ StaysInside base p := by
  have hn : byte '/' ≠ (0 : UInt8) := by decide
  unfold Confined StaysInside
  rcases file_calls fs base p with ⟨hc, he⟩ | ⟨hc, he⟩
  · simp [he, hc]
  · have hin : Inside (cStr base) (cStr (pathAppend base (dropSlash p))) ↔
        (IsAbsoluteRel p → SpellsOut base (dropSlash p)) := by
      rw [← isAbsolute_dropSlash]
      exact Path.inside_cString_append hn (not_infix_dropSlash hc)
    rw [← hin, hc]
    rcases he with he | he <;> simp [he, FsCall.name]

end Http
end Malloy
