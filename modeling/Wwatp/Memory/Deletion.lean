import Wwatp.Cxx.Loops
import Wwatp.Memory.TreeChanges

/-! Which labels a recursive deletion takes along, and that its loop comes to an end. -/
namespace Wwatp

open Cxx

namespace MemoryTree

/-- What the loop of `deleteNode` comes to from its work: it goes on to the children of each stored node whose
labels contain the deleted one. -/
inductive Reached (t : MemoryTree) (label : Str) (work : List Str) : Str → Prop
  | start {current : Str} : current ∈ work → Reached t label work current
  | child {current child : Str} {node : TreeNode} : Reached t label work current → t.getNode current = some node →
      child ∈ node.getAbsoluteChildNames → label <:+: child → Reached t label work child

/-- What a deletion takes along: the children of the deleted node, and what the loop reaches from them. -/
def Linked (t : MemoryTree) (label key : Str) : Prop :=
  ∃ node, t.getNode label = some node ∧ Reached (t.erase label) label node.getAbsoluteChildNames key

theorem Reached.mono {t : MemoryTree} {label key : Str} {work more : List Str} (h : Reached t label work key)
    (hWork : work ⊆ more) : Reached t label more key := by
  induction h with
  | start hMem => exact .start (hWork hMem)
  | child _ hStored hChild hPart ih => exact .child ih hStored hChild hPart

/-- Work without a node leads nowhere. -/
theorem reached_of_none {t : MemoryTree} {label current key : Str} {rest : List Str} (hNone : t.getNode current = none)
    (h : Reached t label (current :: rest) key) : key = current ∨ Reached t label rest key := by
  induction h with
  | start hMem => exact (List.mem_cons.mp hMem).imp_right .start
  | child _ hStored hChild hPart ih =>
      rcases ih with rfl | hRest
      · rw [hNone] at hStored
        cases hStored
      · exact .inr (.child hRest hStored hChild hPart)

/-- Once a node is erased, its children are in the work. -/
theorem reached_erase {t : MemoryTree} {label current key : Str} {node : TreeNode} {rest : List Str}
    (hSome : t.getNode current = some node) (h : Reached t label (current :: rest) key) :
    key = current ∨ Reached (t.erase current) label
      ((node.getAbsoluteChildNames.filter fun child => label <:+: child).reverse ++ rest) key := by
  induction h with
  | start hMem => exact (List.mem_cons.mp hMem).imp_right fun hRest => .start (List.mem_append_right _ hRest)
  | @child parent child stored _ hStored hChild hPart ih =>
      by_cases hParent : parent = current
      · subst hParent
        obtain rfl := Option.some.inj (hSome.symm.trans hStored)
        have hWork : child ∈ (node.getAbsoluteChildNames.filter fun child => label <:+: child).reverse :=
          List.mem_reverse.mpr (List.mem_filter.mpr ⟨hChild, decide_eq_true hPart⟩)
        exact .inr (.start (List.mem_append_left _ hWork))
      · have hKept : (t.erase current).getNode parent = some stored := by
          rw [getNode_erase, if_neg (Ne.symm hParent), hStored]
        exact .inr (.child (ih.resolve_left hParent) hKept hChild hPart)

theorem reached_of_erase {t : MemoryTree} {label current key : Str} {node : TreeNode} {rest : List Str}
    (hSome : t.getNode current = some node)
    (h : Reached (t.erase current) label
      ((node.getAbsoluteChildNames.filter fun child => label <:+: child).reverse ++ rest) key) :
    Reached t label (current :: rest) key := by
  induction h with
  | start hMem =>
      rcases List.mem_append.mp hMem with hChild | hRest
      · obtain ⟨hChild, hPart⟩ := List.mem_filter.mp (List.mem_reverse.mp hChild)
        exact .child (.start List.mem_cons_self) hSome hChild (of_decide_eq_true hPart)
      · exact .start (List.mem_cons_of_mem _ hRest)
  | child _ hStored hChild hPart ih =>
      rw [getNode_erase] at hStored
      split_ifs at hStored
      exact .child ih hStored hChild hPart

/-- The loop erases exactly what it reaches. -/
theorem getNode_deleteLoop_eq (label key : Str) (t : MemoryTree) (work : List Str) :
    (Reached t label work key → (deleteLoop label t work).getNode key = none) ∧
      (¬Reached t label work key → (deleteLoop label t work).getNode key = t.getNode key) := by
  induction t, work using deleteLoop.induct label with
  | case1 t =>
      have hNothing : ¬Reached t label [] key := fun h => by
        induction h with
        | start hMem => cases hMem
        | child _ _ _ _ ih => exact ih
      rw [deleteLoop]
      exact ⟨fun h => absurd h hNothing, fun _ => rfl⟩
  | case2 t current rest hNone ih =>
      rw [deleteLoop_of_none hNone]
      constructor
      · intro h
        by_cases hRest : Reached t label rest key
        · exact ih.1 hRest
        · obtain rfl := (reached_of_none hNone h).resolve_right hRest
          exact (ih.2 hRest).trans hNone
      · exact fun h => ih.2 fun hRest => h (hRest.mono (List.subset_cons_self ..))
  | case3 t current rest node hSome children ih =>
      rw [deleteLoop_of_some hSome]
      constructor
      · intro h
        rcases reached_erase hSome h with rfl | hRest
        · rcases getNode_deleteLoop label key (t.erase key) (children.reverse ++ rest) with hGone | hKept
          · exact hGone
          · rw [hKept, getNode_erase, if_pos rfl]
        · exact ih.1 hRest
      · intro h
        have hKey : current ≠ key := fun hEq => h (hEq ▸ .start List.mem_cons_self)
        rw [ih.2 fun hRest => h (reached_of_erase hSome hRest), getNode_erase, if_neg hKey]

/-- A deletion erases its label and what is linked to it, and nothing else. -/
theorem getNode_deleteNode_of_linked {t : MemoryTree} {label key : Str} (h : key = label ∨ t.Linked label key) :
    (t.deleteNode label).1.getNode key = none := by
  rcases h with rfl | ⟨node, hStored, hReached⟩
  · exact getNode_deleteNode_self t key
  · rw [deleteNode, hStored]
    exact (getNode_deleteLoop_eq label key _ _).1 (hReached.mono (List.reverse_perm _).symm.subset)

theorem getNode_deleteNode_of_not_linked {t : MemoryTree} {label key : Str} (hLabel : key ≠ label)
    (h : ¬t.Linked label key) : (t.deleteNode label).1.getNode key = t.getNode key := by
  unfold deleteNode
  cases hStored : t.getNode label with
  | none => rfl
  | some node =>
      have hReached : ¬Reached (t.erase label) label node.getAbsoluteChildNames.reverse key :=
        fun hReached => h ⟨node, hStored, hReached.mono (List.reverse_perm _).subset⟩
      exact ((getNode_deleteLoop_eq label key _ _).2 hReached).trans (by rw [getNode_erase, if_neg (Ne.symm hLabel)])

/-- One pass through the loop of `deleteNode`, on the tree and the work. -/
def deleteNext (label : Str) : MemoryTree × List Str → Option (MemoryTree × List Str)
  | (_, []) => none
  | (t, current :: rest) =>
    match t.getNode current with
    | none => some (t, rest)
    | some node => some (t.erase current, (node.getAbsoluteChildNames.filter fun child => label <:+: child).reverse ++ rest)

/-- With every pass the tree gets smaller, or the work does while the tree stays. -/
theorem deleteNext_descends (label : Str) (s u : MemoryTree × List Str) (h : deleteNext label s = some u) :
    Prod.Lex (· < ·) (· < ·) (u.1.tree.size, u.2.length) (s.1.tree.size, s.2.length) := by
  obtain ⟨t, work⟩ := s
  cases work with
  | nil => cases h
  | cons current rest =>
      rw [deleteNext] at h
      cases hStored : t.getNode current with
      | none =>
          rw [hStored] at h
          obtain rfl := Option.some.inj h
          exact Prod.Lex.right _ (Nat.lt_succ_self _)
      | some node =>
          rw [hStored] at h
          obtain rfl := Option.some.inj h
          exact Prod.Lex.left _ _ (size_erase_lt hStored)

/-- The loop comes to an end from every tree and all work. -/
theorem ends_deleteNext (label : Str) (s : MemoryTree × List Str) : Ends (deleteNext label) s :=
  ends_of_wellFounded (Prod.lex ⟨_, wellFounded_lt⟩ ⟨_, wellFounded_lt⟩).wf
    (fun s : MemoryTree × List Str => (s.1.tree.size, s.2.length)) (deleteNext_descends label) s

/-- What the loop leaves when it has come to its end. -/
theorem loopRun_deleteLoop (label : Str) (t : MemoryTree) (work : List Str) :
    ∃ n, LoopRun (deleteNext label) (t, work) n (deleteLoop label t work, []) := by
  obtain ⟨n, u, hRun⟩ := ends_deleteNext label (t, work)
  have hSame : ∀ s v : MemoryTree × List Str, deleteLoop label s.1 s.2 = deleteLoop label t work → deleteNext label s = some v →
      deleteLoop label v.1 v.2 = deleteLoop label t work := by
    rintro ⟨s, rest⟩ v hLoop hNext
    cases rest with
    | nil => cases hNext
    | cons current rest =>
        rw [deleteNext] at hNext
        cases hStored : s.getNode current with
        | none =>
            rw [hStored] at hNext
            obtain rfl := Option.some.inj hNext
            rwa [deleteLoop_of_none hStored] at hLoop
        | some node =>
            rw [hStored] at hNext
            obtain rfl := Option.some.inj hNext
            rwa [deleteLoop_of_some hStored] at hLoop
  obtain ⟨hLoop, hEnd⟩ := hRun.invariant hSame rfl
  obtain ⟨final, rest⟩ := u
  cases rest with
  | nil =>
      rw [deleteLoop] at hLoop
      rw [← hLoop]
      exact ⟨n, hRun⟩
  | cons current rest =>
      rw [deleteNext] at hEnd
      cases hStored : final.getNode current <;> simp [hStored] at hEnd

/-- The labels that child names lead to, from a stored node to the next. -/
inductive Reaches (t : MemoryTree) (label : Str) : Str → Prop
  | child {node : TreeNode} {child : Str} : t.getNode label = some node → child ∈ node.childNames →
      Reaches t label (label ++ str "/" ++ child)
  | next {key child : Str} {node : TreeNode} : Reaches t label key → t.getNode key = some node → child ∈ node.childNames →
      Reaches t label (key ++ str "/" ++ child)

section Filed

variable {t : MemoryTree} {label key : Str}

theorem Reaches.isBelow (h : Reaches t label key) : label ++ str "/" <+: key := by
  induction h with
  | child _ _ => exact List.prefix_append _ _
  | next _ _ _ ih =>
      rw [List.append_assoc]
      exact ih.trans (List.prefix_append _ _)

theorem Reaches.ne (h : Reaches t label key) : key ≠ label := by
  rintro rfl
  have hLength := h.isBelow.length_le
  rw [List.length_append] at hLength
  have hSlash : (str "/").length = 1 := rfl
  omega

/-- In a tree whose nodes are under their own labels the children of a node are below its key. -/
theorem mem_absoluteChildNames (hFiled : t.FiledUnderOwnLabels) {node : TreeNode} (hStored : t.getNode key = some node)
    (child : Str) : child ∈ node.getAbsoluteChildNames ↔ ∃ name ∈ node.childNames, child = key ++ str "/" ++ name := by
  rw [TreeNode.getAbsoluteChildNames, hFiled key node hStored, List.mem_map]
  simp only [eq_comm]

/-- What a deletion takes along is what child names lead to. -/
theorem linked_iff_reaches (hFiled : t.FiledUnderOwnLabels) : t.Linked label key ↔ Reaches t label key := by
  constructor
  · rintro ⟨node, hStored, hReached⟩
    induction hReached with
    | start hMem =>
        obtain ⟨name, hName, rfl⟩ := (mem_absoluteChildNames hFiled hStored _).mp hMem
        exact .child hStored hName
    | child _ hHeld hChild _ ih =>
        rw [getNode_erase] at hHeld
        split_ifs at hHeld
        obtain ⟨name, hName, rfl⟩ := (mem_absoluteChildNames hFiled hHeld _).mp hChild
        exact .next ih hHeld hName
  · intro h
    induction h with
    | child hStored hChild =>
        exact ⟨_, hStored, .start ((mem_absoluteChildNames hFiled hStored _).mpr ⟨_, hChild, rfl⟩)⟩
    | @next key child node hReaches hHeld hChild ih =>
        obtain ⟨top, hStored, hReached⟩ := ih
        refine ⟨top, hStored, .child hReached ?_ ((mem_absoluteChildNames hFiled hHeld _).mpr ⟨_, hChild, rfl⟩) ?_⟩
        · rw [getNode_erase, if_neg (Ne.symm hReaches.ne), hHeld]
        · rw [List.append_assoc]
          exact ((List.prefix_append _ _).trans (hReaches.isBelow.trans (List.prefix_append _ _))).isInfix

end Filed

/-- A deletion comes to an end, tells whether the label was there, and in a tree whose nodes are under their own labels
it removes what child names lead to from the label. -/
theorem deleteNode_removes (t : MemoryTree) (label : Str) :
    (∀ node, t.getNode label = some node →
      ∃ n, LoopRun (deleteNext label) (t.erase label, node.getAbsoluteChildNames.reverse) n ((t.deleteNode label).1, [])) ∧
    ((t.deleteNode label).2 = true ↔ ∃ node, t.getNode label = some node) ∧
    (t.FiledUnderOwnLabels → ∀ key,
      (key = label ∨ Reaches t label key → (t.deleteNode label).1.getNode key = none) ∧
      (¬(key = label ∨ Reaches t label key) → (t.deleteNode label).1.getNode key = t.getNode key)) := by
  refine ⟨fun node hStored => ?_, ?_, fun hFiled key => ?_⟩
  · rw [deleteNode, hStored]
    exact loopRun_deleteLoop label (t.erase label) node.getAbsoluteChildNames.reverse
  · unfold deleteNode
    cases t.getNode label <;> simp
  · rw [← linked_iff_reaches hFiled]
    refine ⟨getNode_deleteNode_of_linked, fun hNot => ?_⟩
    obtain ⟨hLabel, hLinked⟩ := not_or.mp hNot
    exact getNode_deleteNode_of_not_linked hLabel hLinked

/-- A node that names a child twice and another one that is not stored, and a child with a child of its own. -/
theorem deleteNode_removes_family :
    let t := ((empty.set (str "A") { labelRule := str "A", childNames := [str "b", str "b", str "x"] }).set (str "A/b")
      { labelRule := str "A/b", childNames := [str "c"] }).set (str "A/b/c") { labelRule := str "A/b/c", childNames := [[]] }
    ∀ key, (key = str "A" ∨ Reaches t (str "A") key → (t.deleteNode (str "A")).1.getNode key = none) ∧
      (¬(key = str "A" ∨ Reaches t (str "A") key) → (t.deleteNode (str "A")).1.getNode key = t.getNode key) := by
  intro t
  refine (deleteNode_removes t (str "A")).2.2 ?_
  intro key node hStored
  simp only [t, getNode_set, getNode_empty] at hStored
  split_ifs at hStored with hFirst hSecond hThird
  · obtain rfl := Option.some.inj hStored
    exact hFirst
  · obtain rfl := Option.some.inj hStored
    exact hSecond
  · obtain rfl := Option.some.inj hStored
    exact hThird

end MemoryTree
end Wwatp
