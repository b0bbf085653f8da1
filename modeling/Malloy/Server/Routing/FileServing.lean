import Malloy.Server.Routing.Endpoint

/-!
# File serving

A file location joins what the target has after `resource_base`, less its query, to its base path.
`generator::file` rejects `..` and drops one leading slash. A second slash makes the rest an
absolute path, and the join then forgets the base path.

* `files_confined_iff`: when the calls of `file`, and the files that a location opens, stay inside
  the base path.
* `double_slash_escapes`: `/files//etc/passwd` opens `/etc/passwd`.
-/

namespace Malloy
namespace Server

open Http Lib

/-- Every file that is opened is inside the base path. -/
def OpensInside (base : Str) (es : List Effect) : Prop :=
  ∀ name, Effect.fs (.openFile name) ∈ es → Inside (cStr base) name

/-- A file system where every name is a regular file that opens. -/
def fullFs : Fs where
  isRegularFile _ := .ok true
  openError _ := none

variable {ep : EndpointHttpFiles} {head : RequestHeader}

/-- The callback makes the calls of `generator::file`, and sends a response. -/
theorem filesDone_eq (env : Env) (hm : (EndpointHttp.files ep).doesMatch head = true)
    {body : Str} {es : List Effect}
    (h : EndpointHttp.filesDone env ep ⟨head, body⟩ = .ok es) :
    ∃ version resp str, es = (file env.fs ep.basePath (ep.relPath head)).1.map .fs ++
      [env.sendResponse version resp str] := by
  simp only [EndpointHttp.doesMatch] at hm
  simp only [EndpointHttp.filesDone, chopResource_of_startsWith hm, bind, Except.bind] at h
  unfold EndpointHttpFiles.relPath
  cases hr : (file env.fs ep.basePath
      (resourceString (head.target.drop ep.resourceBase.length))).2 with
  | error e =>
    rw [hr] at h
    cases h
  | ok resp =>
    rw [hr] at h
    cases h
    exact ⟨_, _, _, rfl⟩

/-- The calls of `file` that open a file are among its calls. -/
theorem opensInside_of_confined {env : Env} {base str : Str} {calls : List FsCall} {version : Nat}
    {resp : Response} (h : Confined base calls) :
    OpensInside base (calls.map .fs ++ [env.sendResponse version resp str]) := by
  intro name hn
  have hc : FsCall.openFile name ∈ calls := by simpa using hn
  exact h _ hc

/-- Where every name is a regular file, `file` opens what it tests. -/
theorem file_full_calls {base p : Str} (hp : p.contains (lit "..") = false) :
    FsCall.openFile (cStr (pathAppend base (dropSlash p))) ∈ (file fullFs base p).1 := by
  unfold file
  rw [if_neg (by simp [hp])]
  simp [fullFs]

/-- **When file serving is confined to its base path.** The calls of `generator::file` are inside
exactly if the path answers 400, or has no second leading slash, or spells out the base path after
its first slash; and a location that matches a request opens no file outside, whatever the file
system holds, under exactly that condition on what `resource_base` leaves of the target. -/
theorem files_confined_iff (fs : Fs) (base p : Str) (ep : EndpointHttpFiles)
    (head : RequestHeader) :
    (Confined base (file fs base p).1 ↔ StaysInside base p) ∧
    ((EndpointHttp.files ep).doesMatch head = true →
      ((∀ env body es, EndpointHttp.filesDone env ep ⟨head, body⟩ = .ok es →
        OpensInside ep.basePath es) ↔ StaysInside ep.basePath (ep.relPath head))) := by
  refine ⟨file_confined_iff fs base p, fun hm => ⟨fun h => ?_, fun h env body es he => ?_⟩⟩
  · by_cases hc : (ep.relPath head).contains (lit "..") = true
    · exact .inl hc
    · -- in a full file system the location opens what it tests
      have hdot : (ep.relPath head).contains (lit "..") = false := by simpa using hc
      have hdone : ∃ es, EndpointHttp.filesDone { Env.bare with fs := fullFs } ep ⟨head, []⟩ =
          .ok es := by
        simp only [EndpointHttp.doesMatch] at hm
        obtain ⟨resp, hr⟩ :=
          (file_ok_iff fullFs ep.basePath (ep.relPath head)).mpr (.inr ⟨true, rfl⟩)
        unfold EndpointHttpFiles.relPath at hr
        simp only [EndpointHttp.filesDone, chopResource_of_startsWith hm, bind, Except.bind, hr]
        exact ⟨_, rfl⟩
      obtain ⟨es, hes⟩ := hdone
      obtain ⟨version, resp, str, rfl⟩ := filesDone_eq _ hm hes
      have hin := h _ _ _ hes _ (List.mem_append_left _
        (List.mem_map.mpr ⟨_, file_full_calls hdot, rfl⟩))
      have hn : byte '/' ≠ (0 : UInt8) := by decide
      refine .inr ?_
      rw [← isAbsolute_dropSlash]
      exact (Path.inside_cString_append hn (not_infix_dropSlash hdot)).mp hin
  · obtain ⟨version, resp, str, rfl⟩ := filesDone_eq env hm he
    exact opensInside_of_confined ((file_confined_iff env.fs ep.basePath (ep.relPath head)).mpr h)

/-- A location that serves `/srv/www` under `/files`. -/
def wwwFiles : EndpointHttpFiles :=
  { resourceBase := lit "/files", basePath := lit "/srv/www", cacheControl := [], writer := 0 }

theorem files_confined_css :
    ∃ es, EndpointHttp.filesDone { Env.bare with fs := fullFs } wwwFiles
      ⟨{ method := .get, target := lit "/files/a.css?v=1" }, []⟩ = .ok es ∧
      Effect.fs (.openFile (lit "/srv/www/a.css")) ∈ es ∧ OpensInside (lit "/srv/www") es := by
  have hin : ∀ env body es, EndpointHttp.filesDone env wwwFiles
      ⟨{ method := .get, target := lit "/files/a.css?v=1" }, body⟩ = .ok es →
      OpensInside (lit "/srv/www") es := by
    refine ((files_confined_iff fullFs [] [] wwwFiles _).2 ?_).mpr (.inr fun h => ?_)
    · decide
    · exact absurd h (by unfold IsAbsoluteRel; decide)
  exact ⟨_, rfl, List.mem_cons_of_mem _ List.mem_cons_self,
    hin { Env.bare with fs := fullFs } [] _ rfl⟩

/-- A second slash after the resource base leaves `/srv/www`. -/
theorem double_slash_escapes :
    (¬ ∀ fs base p, Confined base (file fs base p).1) ∧
    ∃ env es, EndpointHttp.filesDone env wwwFiles
      ⟨{ method := .get, target := lit "/files//etc/passwd" }, []⟩ = .ok es ∧
      Effect.fs (.openFile (lit "/etc/passwd")) ∈ es ∧
      ¬ Inside (cStr (lit "/srv/www")) (lit "/etc/passwd") := by
  have hout : ¬ Inside (cStr (lit "/srv/www")) (lit "/etc/passwd") := by
    unfold Inside
    rw [Path.inside_iff_of_absolute (by decide) (by decide)]
    decide
  refine ⟨fun h => hout ?_, { Env.bare with fs := fullFs }, _, rfl, ?_, hout⟩
  · exact h fullFs (lit "/srv/www") (lit "//etc/passwd") (.isRegularFile (lit "/etc/passwd"))
      (by decide)
  · exact List.mem_cons_of_mem _ List.mem_cons_self

end Server
end Malloy
