import Malloy.Core.Http.Session.Lifetime

/-!
# The session cookie finds its session

* `generated_of_stored`: an id is stored because `generate_id` has yielded it, in a call of the run.
  What a client sends as its id is looked up, never stored.
* `getId_of_carries`: a client that sends back the cookie of a session among any others is read
  as having its id.
* `session_cookie_returns`: the two facts of a run, for the sessions that it stores and for the
  requests that come back.
-/

namespace Malloy
namespace Http
namespace Sessions

open Lib Manager

/-! ## Stored ids -/

theorem generated_of_create {s : StorageMemory} {a : Act} {req : Request} {resp : Response}
    {draws : Fin 32 → Fin 26} (ha : a.call = .start req resp draws)
    (hg : get s req.header = none) : generated s a = some (generateId draws) := by
  unfold generated
  rw [ha]
  exact if_pos hg

/-- A call stores an id that was stored before, or one that it generates. -/
theorem Effect.get_or_generated {s s' : StorageMemory} {a : Act} (h : Effect s a s') {id : Str}
    {rec : Nat} (hg : s'.get id = some rec) : s.get id = some rec ∨ generated s a = some id := by
  cases h with
  | same => exact .inl hg
  | create req resp draws hc hn =>
    by_cases hid : s.get (generateId draws) = none
    · rw [StorageMemory.get_create_of_new hid] at hg
      split at hg
      · rename_i he
        rw [he]
        exact .inr (generated_of_create hc hn)
      · exact .inl hg
    · rw [StorageMemory.get_create_of_stored hid] at hg
      exact .inl hg
  | destroy req resp id' _ _ =>
    rw [StorageMemory.get_destroy] at hg
    split at hg
    · cases hg
    · exact .inl hg
  | expire maxLifetime _ _ =>
    rw [StorageMemory.get_destroyExpired] at hg
    exact .inl (Option.filter_eq_some_iff.mp hg).1
  | record handle r r' _ _ _ => exact .inl hg

/-- Every id that is stored was generated during the run. -/
theorem generated_of_stored {tr : List (StorageMemory × Act)} {s : StorageMemory}
    (h : manager.sys.Runs tr s) {id : Str} {rec : Nat} (hg : s.get id = some rec) :
    ∃ x ∈ tr, generated x.1 x.2 = some id := by
  induction h generalizing rec with
  | init hi =>
    cases hi
    cases hg
  | step a _ hst ih =>
    rcases (effect_of_step hst).get_or_generated hg with hg | hgen
    · obtain ⟨x, hx, hgen⟩ := ih hg
      exact ⟨x, List.mem_append_left _ hx, hgen⟩
    · exact ⟨_, List.mem_append_right _ List.mem_cons_self, hgen⟩

/-! ## Cookies that come back -/

/-- The text of a cookie tells its name and its value. -/
theorem pairText_inj {p q : Str × Str} (hp : byte '=' ∉ p.1) (hq : byte '=' ∉ q.1)
    (h : pairText p = pairText q) : p = q := by
  have hcut : ∀ r : Str × Str, byte '=' ∉ r.1 →
      (pairText r).takeWhile (· != byte '=') = r.1 ∧
        (pairText r).dropWhile (· != byte '=') = byte '=' :: r.2 := by
    intro r hr
    have hall : ∀ b ∈ r.1, (b != byte '=') = true := by
      intro b hb
      rw [bne_iff_ne]
      rintro rfl
      exact hr hb
    unfold pairText
    rw [List.append_assoc, List.takeWhile_append_of_pos hall, List.dropWhile_append_of_pos hall]
    exact ⟨List.append_nil _, rfl⟩
  obtain ⟨hp1, hp2⟩ := hcut p hp
  obtain ⟨hq1, hq2⟩ := hcut q hq
  rw [h] at hp1 hp2
  exact Prod.ext (hp1.symm.trans hq1) (List.cons.inj (hp2.symm.trans hq2)).2

/-- The text of the session cookie up to its first `;`. -/
theorem takeWhile_sessionCookie (draws : Fin 32 → Fin 26) :
    (sessionCookie (generateId draws)).toStr.takeWhile (· != byte ';') =
      pairText (cookieName, generateId draws) :=
  Cookie.takeWhile_toStr _ (show byte ';' ∉ cookieName by decide)
    (not_mem_generateId (by decide))

/-- The request has one `Cookie` field: the text that the client keeps of the line `line`, among
any cookies of other names. -/
structure Carries (hdr : RequestHeader) (line : Str) (ps : List (Str × Str)) : Prop where
  field : (hdr.fields.filter (Fields.named (lit "Cookie"))).map Prod.snd = [cookieText ps]
  sendable : ∀ p ∈ ps, Sendable p
  carried : ∃ p ∈ ps, pairText p = line.takeWhile (· != byte ';')
  only : ∀ p ∈ ps, p.1 = cookieName → pairText p = line.takeWhile (· != byte ';')

theorem getId_of_carries {hdr : RequestHeader} {draws : Fin 32 → Fin 26} {ps : List (Str × Str)}
    (h : Carries hdr (sessionCookie (generateId draws)).toStr ps) :
    getId hdr = some (generateId draws) := by
  have hpair : ∀ p ∈ ps, pairText p =
      (sessionCookie (generateId draws)).toStr.takeWhile (· != byte ';') →
      p = (cookieName, generateId draws) := by
    intro p hp htext
    rw [takeWhile_sessionCookie] at htext
    exact pairText_inj (h.sendable p hp).name_eq (show byte '=' ∉ cookieName by decide) htext
  have hfind : hdr.fields.find (lit "Cookie") = some (cookieText ps) := by
    unfold Fields.find
    rw [← List.head?_filter, ← List.head?_map, h.field]
    rfl
  obtain ⟨p, hp, htext⟩ := h.carried
  have hmem : (cookieName, generateId draws) ∈ ps := by
    rw [← hpair p hp htext]
    exact hp
  refine cookieValue_joined hfind h.sendable (generateId_ne_nil draws)
    (not_mem_generateId (by decide)) hmem fun q hq hn => ?_
  exact congrArg Prod.snd (hpair q hq (h.only q hq hn))

/-- **The session cookie finds its session again, and no id that a client has chosen does.** In
every run each stored id was generated and names a record of that id; and a session that a start
has created, under an id that was not stored, is the one that `get` and `start` return to every
request that carries the text of its `Set-Cookie` line, as long as it has not ended. -/
theorem session_cookie_returns {tr : List (StorageMemory × Act)} {s : StorageMemory}
    (h : manager.sys.Runs tr s) :
    (∀ id rec, s.get id = some rec →
      (∃ x ∈ tr, generated x.1 x.2 = some id) ∧ s.records[rec]?.map Record.id = some id) ∧
    ∀ now req resp draws, get s req.header = none → Fresh s ⟨now, .start req resp draws⟩ →
      ∃ s' session line,
        start s now req resp draws =
          (s', session, { resp with fields := resp.fields.insert (lit "Set-Cookie") line }) ∧
        ∀ t, (manager.sys.onward s').Reach (Keeps (generateId draws)) t →
          ∀ req' ps, Carries req'.header line ps →
            get t req'.header = some session ∧
              ∀ now' resp' draws', start t now' req' resp' draws' = (t, session, resp') := by
  constructor
  · intro id rec hg
    have hreach : manager.sys.Reach Sys.free s := h.reach fun _ _ => trivial
    exact ⟨generated_of_stored h hg, wellFormed_of_reach hreach id rec hg⟩
  · intro now req resp draws hn hfresh
    have hnew : s.get (generateId draws) = none := hfresh _ (generated_of_create rfl hn)
    refine ⟨_, _, _, start_of_none hn, fun t ht req' ps hc => ?_⟩
    have hstored : (s.create now (generateId draws)).2.get (generateId draws) =
        some s.records.length := by
      rw [StorageMemory.get_create_of_new hnew, if_pos rfl]
    have hget : get t req'.header = some s.records.length := by
      rw [get_of_getId (getId_of_carries hc)]
      exact get_of_keeps (fun _ _ h => h) hstored ht
    exact ⟨hget, fun _ _ _ => start_of_some hget⟩

/-- A request that carries the cookie of the id that the draws `1` generate, and two more. -/
def returning : Request where
  header :=
    { method := .get, target := lit "/"
      fields := [(lit "cookie", lit "theme=a=b; sessionId=bbbbbbbbbbbbbbbbbbbbbbbbbbbbbbbb; q=")] }
  body := []

theorem session_cookie_returns_secondVisitor :
    (∀ id rec, oneVisitor.get id = some rec →
      oneVisitor.records[rec]?.map Record.id = some id) ∧
    ∃ s' session resp',
      start oneVisitor 1 anonymous {} (fun _ => 1) = (s', session, resp') ∧
        get s' returning.header = some session := by
  have hrun : manager.sys.Runs [(({} : StorageMemory), ⟨0, .start anonymous {} fun _ => 0⟩)]
      oneVisitor := Sys.runs_run (S := manager.sys) rfl [⟨0, .start anonymous {} fun _ => 0⟩]
  obtain ⟨hids, hret⟩ := session_cookie_returns hrun
  refine ⟨fun id rec hg => (hids id rec hg).2, ?_⟩
  have hnone : get oneVisitor anonymous.header = none := by decide +kernel
  obtain ⟨s', session, line, hst, hget⟩ :=
    hret 1 anonymous {} (fun _ => 1) hnone (by decide +kernel)
  refine ⟨s', session, _, hst, ?_⟩
  have hline : line = (sessionCookie (generateId fun _ => 1)).toStr := by
    rw [start_of_none hnone] at hst
    have hfields := congrArg (fun r => r.2.2.fields.map Prod.snd) hst
    exact (List.cons.inj hfields).1.symm
  subst hline
  obtain ⟨hg, -⟩ := hget s' (.init rfl) returning
    [(lit "theme", lit "a=b"), (cookieName, generateId fun _ => 1), (lit "q", [])]
    { field := by decide +kernel
      sendable := by
        intro p hp
        simp only [List.mem_cons, List.not_mem_nil, or_false] at hp
        rcases hp with rfl | rfl | rfl <;> constructor <;> decide +kernel
      carried := ⟨_, List.mem_cons_of_mem _ List.mem_cons_self, by decide +kernel⟩
      only := by decide +kernel }
  exact hg

end Sessions
end Http
end Malloy
