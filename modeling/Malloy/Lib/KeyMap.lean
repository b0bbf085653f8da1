import Mathlib.Data.List.AList
import Mathlib.Data.Set.Card

/-!
# Maps with unique keys

Two operations of a `std::unordered_map` that Mathlib's `AList` does not have, and what a later
look-up finds.

* `tryEmplace`: an entry is added, unless the key is there already.
* `eraseIf`: the entries that meet a condition are removed; `length_sub_eraseIf` counts them.
* `updateKey`: in a list of records, the first one of a key is updated. If the keys are unique, it
  is the only one (`updateKey_eq_map`, `filter_key`).
-/

namespace Malloy
namespace Lib

variable {α β : Type} [DecidableEq α]

/-- `map.try_emplace(key, value)`. -/
def tryEmplace (key : α) (value : β) (map : AList fun _ : α => β) : AList fun _ : α => β :=
  if key ∈ map then map else map.insert key value

omit [DecidableEq α] in
/-- `std::erase_if(map, pred)`. -/
def eraseIf (pred : α → β → Bool) (map : AList fun _ : α => β) : AList fun _ : α => β where
  entries := map.entries.filter fun item => !pred item.1 item.2
  nodupKeys := map.nodupKeys.sublist List.filter_sublist

theorem lookup_tryEmplace_of_mem {k : α} {v : β} {m : AList fun _ : α => β} (h : k ∈ m) (k' : α) :
    (tryEmplace k v m).lookup k' = m.lookup k' := by
  rw [tryEmplace, if_pos h]

theorem lookup_tryEmplace_of_not_mem {k : α} {v : β} {m : AList fun _ : α => β} (h : k ∉ m)
    (k' : α) : (tryEmplace k v m).lookup k' = if k' = k then some v else m.lookup k' := by
  rw [tryEmplace, if_neg h]
  by_cases hk : k' = k
  · subst hk
    rw [if_pos rfl, AList.lookup_insert]
  · rw [if_neg hk, AList.lookup_insert_ne hk]

theorem lookup_eraseIf (p : α → β → Bool) (m : AList fun _ : α => β) (k : α) :
    (eraseIf p m).lookup k = (m.lookup k).filter fun v => !p k v := by
  ext v
  rw [← Option.mem_def, ← Option.mem_def, AList.mem_lookup_iff, Option.mem_filter_iff,
    AList.mem_lookup_iff]
  exact List.mem_filter

/-- The number of entries that `eraseIf` removes. -/
theorem length_sub_eraseIf (p : α → β → Bool) (m : AList fun _ : α => β) :
    m.entries.length - (eraseIf p m).entries.length =
      {k | ∃ v, m.lookup k = some v ∧ p k v = true}.ncard := by
  have hnd : ((m.entries.filter fun e => p e.1 e.2).map Sigma.fst).Nodup :=
    m.keys_nodup.sublist (List.filter_sublist.map Sigma.fst)
  have hset : {k | ∃ v, m.lookup k = some v ∧ p k v = true} =
      ↑((m.entries.filter fun e => p e.1 e.2).map Sigma.fst).toFinset := by
    ext k
    simp only [Set.mem_ofPred_eq, List.coe_toFinset, List.mem_map, List.mem_filter]
    constructor
    · rintro ⟨v, hv, hp⟩
      exact ⟨⟨k, v⟩, ⟨AList.mem_lookup_iff.mp hv, hp⟩, rfl⟩
    · rintro ⟨⟨k', v⟩, ⟨hm, hp⟩, rfl⟩
      exact ⟨v, AList.mem_lookup_iff.mpr hm, hp⟩
  have hlen := List.length_eq_length_filter_add (l := m.entries) fun e => p e.1 e.2
  rw [hset, Set.ncard_coe_finset, List.toFinset_card_of_nodup hnd, List.length_map]
  simp only [eraseIf]
  omega

/-- In a list of unique keys every entry is the one that is found. -/
theorem lookup_of_mem {l : List (α × β)} {k : α} {v : β}
    (hnd : (l.map Prod.fst).Nodup) (h : (k, v) ∈ l) : l.lookup k = some v := by
  obtain ⟨l₁, l₂, rfl⟩ := List.append_of_mem h
  refine List.lookup_eq_some_iff.mpr ⟨l₁, l₂, rfl, fun p hp => ?_⟩
  rw [List.map_append, List.map_cons, List.nodup_append] at hnd
  have hne := hnd.2.2 p.1 (List.mem_map.mpr ⟨p, hp, rfl⟩) k List.mem_cons_self
  simpa using hne.symm

/-! ## Records with a key -/

section

variable {key : β → α} {k : α} {g : β → β} {xs : List β}

/-- The first record of this key is updated. -/
def updateKey (key : β → α) (k : α) (g : β → β) : List β → List β
  | [] => []
  | x :: xs => if key x = k then g x :: xs else x :: updateKey key k g xs

theorem updateKey_of_not_mem (h : k ∉ xs.map key) : updateKey key k g xs = xs := by
  induction xs with
  | nil => rfl
  | cons x xs ih =>
    rw [List.map_cons, List.mem_cons, not_or] at h
    rw [updateKey, if_neg (Ne.symm h.1), ih h.2]

theorem updateKey_eq_map (h : (xs.map key).Nodup) :
    updateKey key k g xs = xs.map fun x => if key x = k then g x else x := by
  induction xs with
  | nil => rfl
  | cons x xs ih =>
    rw [List.map_cons, List.nodup_cons] at h
    rw [updateKey, List.map_cons, ← ih h.2]
    split
    · rename_i hx
      rw [updateKey_of_not_mem (hx ▸ h.1)]
    · rfl

/-- A record is found by its key. -/
theorem find?_key {x : β} (h : (xs.map key).Nodup) (hx : x ∈ xs) :
    xs.find? (fun y => key y = key x) = some x := by
  cases hfind : xs.find? fun y => key y = key x with
  | none =>
    have := List.find?_eq_none.mp hfind x hx
    simp at this
  | some y =>
    have hkey : key y = key x := by simpa using List.find?_some hfind
    rw [List.inj_on_of_nodup_map h (List.mem_of_find?_eq_some hfind) hx hkey]

/-- It is the only one of its key. -/
theorem filter_key {x : β} (h : (xs.map key).Nodup) (hx : x ∈ xs) :
    xs.filter (fun y => key y = key x) = [x] := by
  induction xs with
  | nil => cases hx
  | cons y xs ih =>
    rw [List.map_cons, List.nodup_cons] at h
    obtain ⟨hy, h⟩ := h
    rcases List.mem_cons.mp hx with rfl | hx
    · rw [List.filter_cons_of_pos (by simp), List.filter_eq_nil_iff.mpr]
      intro z hz
      rw [decide_eq_true_eq]
      exact fun he => hy (he ▸ List.mem_map_of_mem hz)
    · rw [List.filter_cons_of_neg, ih h hx]
      rw [decide_eq_true_eq]
      exact fun he => hy (he ▸ List.mem_map_of_mem hx)

/-- An update that keeps the key keeps all keys. -/
theorem map_key_updateKey (hg : ∀ x, key (g x) = key x) :
    (updateKey key k g xs).map key = xs.map key := by
  induction xs with
  | nil => rfl
  | cons x xs ih =>
    rw [updateKey]
    split
    · rw [List.map_cons, List.map_cons, hg]
    · rw [List.map_cons, List.map_cons, ih]

end

end Lib
end Malloy
