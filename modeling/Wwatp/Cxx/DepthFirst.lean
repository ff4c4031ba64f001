import Mathlib

/-! What a depth-first search leaves behind: either a cycle, or elements that are finished, each after all that it leads to. -/
namespace Cxx

variable {α : Type*} {edge : α → α → Prop} {done : List α} {a b : α}

/-- A path that comes back to where it starts, with nothing on it twice. -/
def IsCycle (edge : α → α → Prop) (cycle : List α) : Prop :=
  ∃ node front, cycle = node :: front ++ [node] ∧ (node :: front).Nodup ∧ cycle.IsChain edge

theorem transGen_of_isChain {front : List α} (h : (a :: front ++ [b]).IsChain edge) : Relation.TransGen edge a b := by
  induction front generalizing a with
  | nil => exact .single (List.isChain_pair.mp h)
  | cons first rest ih =>
      obtain ⟨hEdge, hRest⟩ := List.isChain_cons_cons.mp h
      exact .head hEdge (ih hRest)

/-- What is on a cycle leads to itself. -/
theorem IsCycle.transGen {cycle : List α} (h : IsCycle edge cycle) : ∃ node ∈ cycle, Relation.TransGen edge node node := by
  obtain ⟨node, front, rfl, -, hChain⟩ := h
  exact ⟨node, List.mem_cons_self, transGen_of_isChain hChain⟩

/-- The end of a path that comes to an element it has visited. -/
theorem isCycle_of_mem [DecidableEq α] {path : List α} (hMem : a ∈ path) (hNodup : path.Nodup)
    (hChain : (path ++ [a]).IsChain edge) : IsCycle edge (path.dropWhile (· ≠ a) ++ [a]) := by
  obtain ⟨before, behind, rfl, hBefore⟩ := List.eq_append_cons_of_mem hMem
  have hOther : ∀ b ∈ before, decide (b ≠ a) = true := by
    intro b hb
    rw [decide_eq_true_eq]
    rintro rfl
    exact hBefore hb
  have hDrop : (before ++ a :: behind).dropWhile (· ≠ a) = a :: behind := by
    rw [List.dropWhile_append_of_pos hOther]
    simp
  rw [hDrop]
  refine ⟨a, behind, rfl, (List.nodup_append.mp hNodup).2.1, ?_⟩
  rw [List.append_assoc] at hChain
  exact hChain.right_of_append

/-- Elements that are finished, the last one first. -/
def Finished (edge : α → α → Prop) : List α → Prop
  | [] => True
  | node :: done => (∀ next, edge node next → next ∈ done) ∧ Finished edge done

namespace Finished

theorem closed (h : Finished edge done) (ha : a ∈ done) (hEdge : edge a b) : b ∈ done := by
  induction done with
  | nil => cases ha
  | cons node done ih =>
      obtain ⟨hNode, hDone⟩ := h
      rcases List.mem_cons.mp ha with rfl | ha
      · exact List.mem_cons_of_mem _ (hNode b hEdge)
      · exact List.mem_cons_of_mem _ (ih hDone ha)

theorem closed_trans (h : Finished edge done) (ha : a ∈ done) (hPath : Relation.TransGen edge a b) : b ∈ done := by
  induction hPath with
  | single hEdge => exact h.closed ha hEdge
  | tail _ hEdge ih => exact h.closed ih hEdge

/-- Nothing that is finished leads to itself. -/
theorem not_transGen (h : Finished edge done) (ha : a ∈ done) : ¬Relation.TransGen edge a a := by
  induction done with
  | nil => cases ha
  | cons node done ih =>
      obtain ⟨hNode, hDone⟩ := h
      intro hPath
      have hBack : a ∈ done := by
        rcases List.mem_cons.mp ha with rfl | ha
        · obtain ⟨next, hEdge, hRest⟩ := Relation.TransGen.head'_iff.mp hPath
          rcases Relation.reflTransGen_iff_eq_or_transGen.mp hRest with rfl | hRest
          · exact hNode a hEdge
          · exact hDone.closed_trans (hNode next hEdge) hRest
        · exact ha
      exact ih hDone hBack hPath

end Finished
end Cxx
