import Mathlib.Data.List.Basic
import Mathlib.Logic.Function.Basic

/-! Memory as a value in each cell, and values that are written to cells one after another. The cells of a list
need not be different ones. -/
namespace Cxx

variable {κ β : Type} [DecidableEq κ]

/-- Memory after some writes. -/
def writeAll (m : κ → β) (writes : List (κ × β)) : κ → β :=
  writes.foldl (fun m write => Function.update m write.1 write.2) m

variable {m : κ → β} {writes : List (κ × β)} {cells : List κ} {values : List β} {k : κ}

@[simp] theorem writeAll_nil (m : κ → β) : writeAll m [] = m := rfl

@[simp] theorem writeAll_cons (m : κ → β) (write : κ × β) (writes : List (κ × β)) :
    writeAll m (write :: writes) = writeAll (Function.update m write.1 write.2) writes := rfl

/-- A cell that is not written to keeps its value. -/
theorem writeAll_of_not_mem (h : k ∉ writes.map Prod.fst) : writeAll m writes k = m k := by
  induction writes generalizing m with
  | nil => rfl
  | cons write writes ih =>
      rw [List.map_cons, List.mem_cons, not_or] at h
      rw [writeAll_cons, ih h.2, Function.update_of_ne h.1]

/-- A cell that is written to holds the value of one of the writes. -/
theorem exists_writeAll_of_mem (h : k ∈ writes.map Prod.fst) : (k, writeAll m writes k) ∈ writes := by
  induction writes generalizing m with
  | nil => cases h
  | cons write writes ih =>
      rw [writeAll_cons]
      by_cases hLater : k ∈ writes.map Prod.fst
      · exact List.mem_cons_of_mem _ (ih hLater)
      · have hFirst : k = write.1 := by
          rw [List.map_cons, List.mem_cons] at h
          exact h.resolve_right hLater
        rw [writeAll_of_not_mem hLater, hFirst, Function.update_self]
        exact List.mem_cons_self

omit [DecidableEq κ] in
/-- Values are written to as many cells as there are values. -/
theorem map_fst_zip_take (cells : List κ) (values : List β) : (cells.zip values).map Prod.fst = cells.take values.length := by
  induction cells generalizing values with
  | nil => simp
  | cons k cells ih =>
      cases values with
      | nil => rfl
      | cons value values => rw [List.zip_cons_cons, List.map_cons, ih, List.length_cons, List.take_succ_cons]

omit [DecidableEq κ] in
/-- Values in two parts. -/
theorem zip_append_drop (cells : List κ) (first second : List β) :
    cells.zip (first ++ second) = cells.zip first ++ (cells.drop first.length).zip second := by
  induction first generalizing cells with
  | nil => simp
  | cons value first ih =>
      cases cells with
      | nil => simp
      | cons k cells => rw [List.cons_append, List.zip_cons_cons, List.zip_cons_cons, ih, List.length_cons,
          List.drop_succ_cons, List.cons_append]

omit [DecidableEq κ] in
/-- Cells behind those for the values are not written to. -/
theorem zip_append_of_length {first : List κ} (second : List κ) (h : first.length = values.length) :
    (first ++ second).zip values = first.zip values := by
  have hZip := @List.zip_append _ _ first second values [] h
  rwa [List.append_nil, List.zip_nil_right, List.append_nil] at hZip

/-- Values over the first of some others. -/
def overlaid (values old : List β) : List β := values ++ old.drop values.length

omit [DecidableEq κ] in
theorem overlaid_front {i : ℕ} (old : List β) (hi : i < values.length) : (overlaid values old)[i]? = values[i]? :=
  List.getElem?_append_left hi

omit [DecidableEq κ] in
theorem overlaid_back {i : ℕ} (old : List β) (hi : values.length ≤ i) : (overlaid values old)[i]? = old[i]? := by
  rw [overlaid, List.getElem?_append_right hi, List.getElem?_drop, Nat.add_sub_cancel' hi]

omit [DecidableEq κ] in
theorem length_overlaid {old : List β} (h : values.length ≤ old.length) : (overlaid values old).length = old.length := by
  rw [overlaid, List.length_append, List.length_drop, Nat.add_sub_cancel' h]

/-- Values that are written to the first of some cells can be read back, with the rest as before, where no two names of
a cell ask for different values. -/
theorem map_writeAll_iff (h : values.length ≤ cells.length) :
    cells.map (writeAll m (cells.zip values)) = overlaid values (cells.map m) ↔
      ∀ i j : ℕ, i < values.length → cells[i]? = cells[j]? →
        (overlaid values (cells.map m))[i]? = (overlaid values (cells.map m))[j]? := by
  constructor
  · intro hReads i j _ hCell
    rw [← hReads, List.getElem?_map, List.getElem?_map, hCell]
  · intro hAlike
    apply List.ext_getElem?
    intro j
    rw [List.getElem?_map]
    cases hCell : cells[j]? with
    | none =>
        have hLength : (overlaid values (cells.map m)).length ≤ j := by
          rw [length_overlaid (by rw [List.length_map]; exact h), List.length_map]
          exact List.getElem?_eq_none_iff.mp hCell
        rw [List.getElem?_eq_none hLength]
        rfl
    | some k =>
        rw [Option.map_some]
        by_cases hWritten : k ∈ (cells.zip values).map Prod.fst
        · obtain ⟨i, hZip⟩ := List.getElem?_of_mem (exists_writeAll_of_mem (m := m) hWritten)
          obtain ⟨hKey, hValue⟩ := List.getElem?_zip_eq_some.mp hZip
          obtain ⟨hi, -⟩ := List.getElem?_eq_some_iff.mp hValue
          rw [← hAlike i j hi (hKey.trans hCell.symm), overlaid_front _ hi, hValue]
        · have hj : values.length ≤ j := by
            by_contra hFront
            apply hWritten
            rw [map_fst_zip_take]
            exact List.mem_of_getElem? ((List.getElem?_take_of_lt (Nat.not_le.mp hFront)).trans hCell)
          rw [overlaid_back _ hj, writeAll_of_not_mem hWritten, List.getElem?_map, hCell]
          rfl

end Cxx
