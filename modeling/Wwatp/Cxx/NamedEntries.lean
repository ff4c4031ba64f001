import Mathlib.Data.List.Nodup
import Mathlib.Logic.Function.Basic

/-! Lists of entries of which no two have the same key, and what such a list assigns to a key when one entry is
added, replaced or taken away. -/
namespace Cxx

variable {α κ β : Type*} [DecidableEq κ] (key : α → κ) (value : α → β)

/-- What some entries assign to a key. -/
def contentsOf (entries : List α) (k : κ) : Option β := (entries.find? fun a => key a = k).map value

variable {key value} {entries front back : List α} {a b : α}

/-- A key has an entry, or it has none. -/
theorem split_or_not_mem (key : α → κ) (entries : List α) (k : κ) :
    (∃ front a back, entries = front ++ a :: back ∧ key a = k) ∨ ∀ a ∈ entries, key a ≠ k := by
  by_cases h : ∃ a ∈ entries, key a = k
  · obtain ⟨a, ha, hKey⟩ := h
    obtain ⟨front, back, rfl⟩ := List.append_of_mem ha
    exact Or.inl ⟨front, a, back, rfl, hKey⟩
  · exact Or.inr fun a ha hKey => h ⟨a, ha, hKey⟩

theorem contentsOf_of_not_mem {k : κ} (h : ∀ a ∈ entries, key a ≠ k) : contentsOf key value entries k = none := by
  rw [contentsOf, List.find?_eq_none.mpr]
  · rfl
  · simpa using h

theorem contentsOf_eq_none_iff {k : κ} : contentsOf key value entries k = none ↔ ∀ a ∈ entries, key a ≠ k := by
  rw [contentsOf, Option.map_eq_none_iff, List.find?_eq_none]
  simp

/-- An entry assigns its value to its key. -/
theorem contentsOf_middle (h : ∀ c ∈ front, key c ≠ key a) :
    contentsOf key value (front ++ a :: back) (key a) = some (value a) := by
  rw [contentsOf, List.find?_append, List.find?_eq_none.mpr (by simpa using h), Option.none_or,
    List.find?_cons_of_pos (by simp), Option.map_some]

theorem contentsOf_of_mem (hKeys : (entries.map key).Nodup) (ha : a ∈ entries) :
    contentsOf key value entries (key a) = some (value a) := by
  obtain ⟨front, back, rfl⟩ := List.append_of_mem ha
  rw [List.map_append, List.map_cons, List.nodup_append] at hKeys
  exact contentsOf_middle fun c hc => hKeys.2.2 _ (List.mem_map_of_mem hc) _ List.mem_cons_self

/-- An entry that is added assigns its value, and all other keys keep theirs. -/
theorem contentsOf_added (h : ∀ c ∈ front ++ back, key c ≠ key a) :
    contentsOf key value (front ++ a :: back) = Function.update (contentsOf key value (front ++ back)) (key a) (some (value a)) := by
  funext k
  by_cases hKey : k = key a
  · subst hKey
    rw [Function.update_self, contentsOf_middle fun c hc => h c (List.mem_append_left _ hc)]
  · rw [Function.update_of_ne hKey, contentsOf, contentsOf, List.find?_append, List.find?_append,
      List.find?_cons_of_neg (by simpa using Ne.symm hKey)]

theorem contentsOf_removed (h : ∀ c ∈ front ++ back, key c ≠ key a) :
    contentsOf key value (front ++ back) = Function.update (contentsOf key value (front ++ a :: back)) (key a) none := by
  rw [contentsOf_added h, Function.update_idem, ← contentsOf_eq_none_iff.mpr h, Function.update_eq_self]

theorem contentsOf_replaced (h : ∀ c ∈ front ++ back, key c ≠ key a) (hKey : key b = key a) :
    contentsOf key value (front ++ b :: back) =
      Function.update (contentsOf key value (front ++ a :: back)) (key a) (some (value b)) := by
  have hb : ∀ c ∈ front ++ back, key c ≠ key b := by
    rw [hKey]
    exact h
  rw [contentsOf_added h, contentsOf_added hb, hKey, Function.update_idem]

end Cxx
