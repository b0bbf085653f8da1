import Malloy.Lib.Sys

/-!
# Systems that come to rest

Some steps of a system are calls from outside, the others do work that is there already. If each
step of the second kind lowers a measure of the work that is left, the system comes to rest by
itself, in whatever order these steps are taken.

* `Sys.Lowers ok work`: each step that meets `ok` lowers the measure. A run of such steps is no
  longer than the measure (`length_add_le`), and some run ends (`exists_final`).
* `Sys.Settles ok work P s`: from `s` every run of such steps ends, and where it ends `P` holds. The
  measure need only be lowered where an invariant of these runs holds (`settles_of_inductive`).
* `Reach.project`: a part of a system that takes a step of its own, or none, in each step of the
  whole is in a state that its own runs reach.
-/

namespace Malloy
namespace Lib
namespace Sys

variable {St Act : Type} {S : Sys St Act} {ok : St → Act → Prop} {work : St → Nat}
  {P : St → Prop} {s t : St}

/-! ## Coming to rest -/

/-- Each step that meets `ok` lowers the measure. -/
def Lowers (S : Sys St Act) (ok : St → Act → Prop) (work : St → Nat) : Prop :=
  ∀ s a s', ok s a → S.step s a = some s' → work s' < work s

theorem Lowers.length_add_le (h : S.Lowers ok work) {tr : List (St × Act)}
    (hr : (S.onward s).Runs tr t) (hok : ∀ x ∈ tr, ok x.1 x.2) :
    tr.length + work t ≤ work s := by
  induction hr with
  | init hi =>
    cases hi
    simp
  | @step tr t t' a _ hst ih =>
    obtain ⟨htr, ha⟩ := List.forall_mem_append.mp hok
    have hle := ih htr
    have hlt : work t' < work t := h t a t' (ha _ List.mem_cons_self) hst
    rw [List.length_append, List.length_singleton]
    omega

/-- A step, and then the run from there. -/
theorem Reach.onward_step {a : Act} {s' : St} (ho : ok s a) (hst : S.step s a = some s')
    (ht : (S.onward s').Reach ok t) : (S.onward s).Reach ok t := by
  induction ht with
  | init hi =>
    cases hi
    exact .step a (.init rfl) ho hst
  | step b _ hb hstb ih => exact .step b ih hb hstb

/-- One goes on for as long as there is a step to take. -/
theorem Lowers.exists_final (h : S.Lowers ok work) (s : St) :
    ∃ t, (S.onward s).Reach ok t ∧ S.Final ok t := by
  induction hn : work s using Nat.strongRecOn generalizing s with
  | ind n ih =>
    by_cases hf : S.Final ok s
    · exact ⟨s, .init rfl, hf⟩
    · simp only [Final, not_forall, not_not] at hf
      obtain ⟨a, s', ho, hst⟩ := hf
      obtain ⟨t, ht, hft⟩ := ih (work s') (hn ▸ h s a s' ho hst) s' rfl
      exact ⟨t, ht.onward_step ho hst, hft⟩

/-- From `s` the steps that meet `ok` come to an end, and where they do `P` holds. -/
structure Settles (S : Sys St Act) (ok : St → Act → Prop) (work : St → Nat) (P : St → Prop)
    (s : St) : Prop where
  bounded : ∀ tr t, (S.onward s).Runs tr t → (∀ x ∈ tr, ok x.1 x.2) → tr.length ≤ work s
  ends : ∃ t, (S.onward s).Reach ok t ∧ S.Final ok t
  settled : ∀ t, (S.onward s).Reach ok t → S.Final ok t → P t

theorem Lowers.comes_to_rest (h : S.Lowers ok work)
    (hP : ∀ t, (S.onward s).Reach ok t → S.Final ok t → P t) : S.Settles ok work P s where
  bounded _ _ hr hok := Nat.le_trans (Nat.le_add_right _ _) (h.length_add_le hr hok)
  ends := h.exists_final s
  settled := hP

/-- The steps lower the measure where an invariant of the runs from `s` holds. -/
theorem settles_of_inductive {I : St → Prop} (hI : (S.onward s).Inductive ok I)
    (hlow : ∀ t a t', I t → ok t a → S.step t a = some t' → work t' < work t)
    (hP : ∀ t, I t → S.Final ok t → P t) : S.Settles ok work P s := by
  have h : S.Lowers (fun t a => I t ∧ ok t a) work := fun t a t' ho => hlow t a t' ho.1 ho.2
  refine ⟨fun tr t hr hok => ?_, ?_, fun t ht hf => hP t (hI.reach ht) hf⟩
  · refine Nat.le_trans (Nat.le_add_right _ _) (h.length_add_le hr ?_)
    clear h
    induction hr with
    | init _ => exact fun x hx => absurd hx List.not_mem_nil
    | step a hr _ ih =>
      obtain ⟨htr, ha⟩ := List.forall_mem_append.mp hok
      refine List.forall_mem_append.mpr ⟨ih htr, List.forall_mem_singleton.mpr ⟨?_, ?_⟩⟩
      · exact hI.reach (hr.reach htr)
      · exact ha _ List.mem_cons_self
  · obtain ⟨t, ht, hf⟩ := h.exists_final s
    have ht : (S.onward s).Reach ok t := ht.mono fun _ _ ho => ho.2
    exact ⟨t, ht, fun a t' ho => hf a t' ⟨hI.reach ht, ho⟩⟩

/-! ## Parts of a system -/

/-- The part of the state is one that the runs of the part reach, if in every step of the whole it
stays what it is or takes a step of its own. -/
theorem Reach.project {St' Act' : Type} {T : Sys St' Act'} {ok' : St' → Act' → Prop}
    (part : St → St') (hs : S.Reach ok s) (hinit : ∀ s, S.init s → T.init (part s))
    (hstep : ∀ s a s', S.Reach ok s → ok s a → S.step s a = some s' →
      part s' = part s ∨ ∃ b, ok' (part s) b ∧ T.step (part s) b = some (part s')) :
    T.Reach ok' (part s) := by
  induction hs with
  | init hi => exact .init (hinit _ hi)
  | step a hr ho hst ih =>
    rcases hstep _ a _ hr ho hst with he | ⟨b, hb, hstb⟩
    · rw [he]
      exact ih
    · exact .step b ih hb hstb

end Sys

end Lib
end Malloy
