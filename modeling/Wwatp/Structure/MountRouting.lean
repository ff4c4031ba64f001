import Wwatp.Cxx.OrderedMap
import Wwatp.Memory.SimpleBackend

/-! `CompositeBackend`: backends mounted under labels of a root backend. A label is
routed by the mount that sorts last among those up to the label. -/
namespace Wwatp

open Cxx

structure CompositeBackend (Callback : Type) where
  rootBackend : SimpleBackend Callback
  mountedBackends : Std.ExtTreeMap Str (SimpleBackend Callback)

/-- The backend a label is routed to: the root, or the one mounted under a label. -/
inductive Route
  | root
  | mount (label : Str)
  deriving DecidableEq, Repr

/-- The mount that owns a label: the label itself or one of its ancestors. -/
def Owns (mount label : Str) : Prop := mount = label ∨ IsAncestor mount label

instance (mount label : Str) : Decidable (Owns mount label) :=
  inferInstanceAs (Decidable (_ ∨ _))

/-- How much of a label its mount takes: all of it, or the mount's label and a slash. -/
def mountOffset (mount label : Str) : Nat :=
  if mount = label then mount.length else mount.length + 1

theorem Owns.isLE {mount label : Str} (h : Owns mount label) : (compare mount label).isLE := by
  rcases h with rfl | hAncestor
  · simp
  · exact Str.compare_isLE_of_isPrefix hAncestor.isPrefix

namespace CompositeBackend

section Routing

variable {V : Type} (mountedBackends : Std.ExtTreeMap Str V) (labelRule : Str)

/-- `getRelevantBackend`: the offset behind the mount's label, and the backend. The
entry looked at is the one before `upper_bound`. -/
def getRelevantBackend : Nat × Route :=
  match (entriesUpTo mountedBackends labelRule).head? with
  | none => (0, .root)
  | some (mount, _) =>
      if labelRule.take mount.length = mount then
        if labelRule.length = mount.length then (mount.length, .mount mount)
        else if labelRule.getD mount.length 0 = slash then (mount.length + 1, .mount mount)
        else (0, .root)
      else (0, .root)

variable {mountedBackends labelRule}

/-- What the comparisons behind the lookup decide. -/
theorem getRelevantBackend_eq : getRelevantBackend mountedBackends labelRule =
    match (entriesUpTo mountedBackends labelRule).head? with
    | none => (0, .root)
    | some (mount, _) =>
        if Owns mount labelRule then (mountOffset mount labelRule, .mount mount) else (0, .root) := by
  unfold getRelevantBackend
  cases (entriesUpTo mountedBackends labelRule).head? with
  | none => rfl
  | some entry =>
      obtain ⟨mount, backend⟩ := entry
      dsimp only
      by_cases hTake : labelRule.take mount.length = mount
      · obtain ⟨rest, rfl⟩ : mount <+: labelRule := hTake ▸ List.take_prefix _ _
        rw [if_pos hTake]
        cases rest with
        | nil => simp [Owns, mountOffset]
        | cons c rest =>
            have hNe : mount ≠ mount ++ c :: rest := by simp
            have hLength : (mount ++ c :: rest).length ≠ mount.length := by simp
            have hAt : (mount ++ c :: rest).getD mount.length 0 = c := by simp
            have hOwns : Owns mount (mount ++ c :: rest) ↔ c = slash := by
              simp only [Owns, IsAncestor, hNe, false_or, List.prefix_append_right_inj,
                List.cons_prefix_cons, List.nil_prefix, and_true]
              exact eq_comm
            rw [if_neg hLength, hAt]
            simp only [hOwns, mountOffset, if_neg hNe]
      · have hNot : ¬ Owns mount labelRule := by
          rintro (rfl | hAncestor)
          · exact hTake (List.take_length)
          · exact hTake (List.prefix_iff_eq_take.mp hAncestor.isPrefix).symm
        rw [if_neg hTake, if_neg hNot]

/-- Only a mount that owns the label is selected, with the offset behind it. -/
theorem owns_of_route {mount : Str} {offset : Nat}
    (h : getRelevantBackend mountedBackends labelRule = (offset, .mount mount)) :
    mount ∈ mountedBackends ∧ Owns mount labelRule ∧ offset = mountOffset mount labelRule := by
  rw [getRelevantBackend_eq] at h
  cases hHead : (entriesUpTo mountedBackends labelRule).head? with
  | none => rw [hHead] at h; cases h
  | some entry =>
      obtain ⟨candidate, backend⟩ := entry
      rw [hHead] at h
      dsimp only at h
      split_ifs at h with hOwns
      · obtain ⟨rfl, hRoute⟩ := Prod.mk.inj h
        obtain rfl := Route.mount.inj hRoute
        have hStored := (head?_entriesUpTo.mp hHead).1
        exact ⟨Std.ExtTreeMap.mem_iff_isSome_getElem?.mpr (Option.isSome_of_eq_some hStored), hOwns, rfl⟩
      · cases (Prod.mk.inj h).2

/-- No mount sorts behind `mount` and up to the label. -/
def LastUpTo (mountedBackends : Std.ExtTreeMap Str V) (labelRule mount : Str) : Prop :=
  ∀ other ∈ mountedBackends, (compare other labelRule).isLE → ¬ compare mount other = .lt

/-- A mount that owns the label is selected exactly when no other sorts in between. -/
theorem route_eq_iff {mount : Str} (hMount : mount ∈ mountedBackends) (hOwns : Owns mount labelRule) :
    getRelevantBackend mountedBackends labelRule = (mountOffset mount labelRule, .mount mount) ↔
      LastUpTo mountedBackends labelRule mount := by
  have hStored := Std.ExtTreeMap.getElem?_eq_some_getElem hMount
  rw [getRelevantBackend_eq]
  constructor
  · intro h
    cases hHead : (entriesUpTo mountedBackends labelRule).head? with
    | none => rw [hHead] at h; cases (Prod.mk.inj h).2
    | some entry =>
        obtain ⟨candidate, backend⟩ := entry
        rw [hHead] at h
        dsimp only at h
        split_ifs at h
        · obtain rfl := Route.mount.inj (Prod.mk.inj h).2
          exact (head?_entriesUpTo.mp hHead).2.2
        · cases (Prod.mk.inj h).2
  · intro hLast
    have hHead : (entriesUpTo mountedBackends labelRule).head? = some (mount, mountedBackends[mount]) :=
      head?_entriesUpTo.mpr ⟨hStored, hOwns.isLE, hLast⟩
    rw [hHead]
    exact if_pos hOwns

/-- Routing as it is meant: to the mount that owns the label, past its label and the
slash, and to the root with offset 0 if there is none. -/
structure RoutesToOwner (mountedBackends : Std.ExtTreeMap Str V) (labelRule : Str) : Prop where
  owner : ∀ mount ∈ mountedBackends,
    (getRelevantBackend mountedBackends labelRule).2 = .mount mount ↔ Owns mount labelRule
  offset : ∀ mount, (getRelevantBackend mountedBackends labelRule).2 = .mount mount →
    (getRelevantBackend mountedBackends labelRule).1 = mountOffset mount labelRule
  root : (∀ mount ∈ mountedBackends, ¬ Owns mount labelRule) →
    getRelevantBackend mountedBackends labelRule = (0, .root)

end Routing

/-- A label is routed to its owner exactly when no other mount sorts between the two. -/
theorem routesToOwner_iff {V : Type} (mountedBackends : Std.ExtTreeMap Str V) (labelRule : Str) :
    RoutesToOwner mountedBackends labelRule ↔
      ∀ mount ∈ mountedBackends, Owns mount labelRule → LastUpTo mountedBackends labelRule mount := by
  constructor
  · intro h mount hMount hOwns
    have hRoute := (h.owner mount hMount).mpr hOwns
    exact (route_eq_iff hMount hOwns).mp (Prod.ext (h.offset mount hRoute) hRoute)
  · intro h
    refine ⟨fun mount hMount => ⟨fun hRoute => ?_, fun hOwns => ?_⟩, fun mount hRoute => ?_, fun hNone => ?_⟩
    · exact (owns_of_route (Prod.ext rfl hRoute)).2.1
    · rw [(route_eq_iff hMount hOwns).mpr (h mount hMount hOwns)]
    · exact (owns_of_route (Prod.ext rfl hRoute)).2.2
    · rw [getRelevantBackend_eq]
      cases hHead : (entriesUpTo mountedBackends labelRule).head? with
      | none => rfl
      | some entry =>
          have hStored := (head?_entriesUpTo.mp hHead).1
          have hMount : entry.1 ∈ mountedBackends :=
            Std.ExtTreeMap.mem_iff_isSome_getElem?.mpr (Option.isSome_of_eq_some hStored)
          exact if_neg (hNone _ hMount)

section Mounting

variable {Callback : Type}

/-- The loop of `mountBackend` over the labels mounted so far. -/
def checkMounts (labelRule : Str) : List Str → Outcome Unit
  | [] => .ok ()
  | mounted :: rest => do
      if ← checkLabelRuleOverlap labelRule mounted then
        throw (.runtimeError (str "Label rule overlaps with an existing mounted backend"))
      checkMounts labelRule rest

def mountBackend (c : CompositeBackend Callback) (labelRule : Str) (backend : SimpleBackend Callback) :
    Outcome (CompositeBackend Callback) := do
  if labelRule ∈ c.mountedBackends then
    throw (.runtimeError (str "Label rule already exists in the mounted backends"))
  if (c.rootBackend.getNode labelRule).isSome then
    throw (.runtimeError (str "Label rule already exists in the root backend"))
  checkMounts labelRule c.mountedBackends.keys
  return { c with mountedBackends := c.mountedBackends.insert labelRule backend }

/-- A composite backend without mounts. -/
def ofRoot (root : SimpleBackend Callback) : CompositeBackend Callback := ⟨root, ∅⟩

def emptyBackend : SimpleBackend Callback := ⟨.empty, .empty⟩

/-- `A/B!` sorts between the mount `A/B` and the label `A/B/C` under it. -/
theorem not_routesToOwner_sibling :
    ∃ (first both : CompositeBackend Unit),
      (ofRoot emptyBackend).mountBackend (str "A/B") emptyBackend = .ok first ∧
      first.mountBackend (str "A/B!") emptyBackend = .ok both ∧
      ¬ RoutesToOwner both.mountedBackends (str "A/B/C") := by
  refine ⟨_, _, rfl, rfl, fun h => ?_⟩
  have hOwner := (h.owner (str "A/B") (by decide)).mpr (by decide)
  revert hOwner
  decide

end Mounting

end CompositeBackend
end Wwatp
