import Wwatp.Cxx.Directories
import Wwatp.Cxx.Transitions
import Wwatp.File.Watches
import Wwatp.Memory.Registrations

/-! The two maps between the watches of a `FileBackend` and their descriptors. They are inverse
to each other as long as no listener is removed that shares a descriptor. -/
namespace Wwatp

open Cxx Cxx.Effectful

namespace WatchTables

variable {Callback : Type}

/-- A watch is in the set of a descriptor exactly when it is mapped to it, and no set is empty. -/
structure Inverse (s : WatchTables Callback) : Prop where
  mapped_iff : ∀ full wd, s.watchchainToWd full = some wd ↔ ∃ entries, s.wdToWatchchain wd = some entries ∧ full ∈ entries
  nonempty : ∀ wd, s.wdToWatchchain wd ≠ some ∅

/-- The maps are inverse, and every descriptor is that of the place it watches. -/
structure Consistent (cwd : Path) (s : WatchTables Callback) : Prop extends Inverse s where
  watched : ∀ full wd, s.watchchainToWd full = some wd → s.inotify.watched (placeOf cwd full.desired.2) = some wd

variable {cwd : Path} {s : WatchTables Callback} {full : FullWatchSpecifier} {wd : ℕ}

theorem consistent_empty (cwd : Path) : (empty : WatchTables Callback).Consistent cwd where
  mapped_iff _ _ := ⟨nofun, nofun⟩
  nonempty _ := nofun
  watched _ _ := nofun

/-- The maps alone decide. -/
theorem Consistent.of_same (h : s.Consistent cwd) {t : WatchTables Callback}
    (hWd : t.watchchainToWd = s.watchchainToWd) (hSets : t.wdToWatchchain = s.wdToWatchchain)
    (hInotify : t.inotify = s.inotify) : t.Consistent cwd where
  mapped_iff := by rw [hWd, hSets]; exact h.mapped_iff
  nonempty := by rw [hSets]; exact h.nonempty
  watched := by rw [hWd, hInotify]; exact h.watched

/-- The set of the descriptor that a mapped watch has. -/
theorem Inverse.entries (h : s.Inverse) (hMapped : s.watchchainToWd full = some wd) :
    ∃ entries, s.wdToWatchchain wd = some entries ∧ full ∈ entries :=
  (h.mapped_iff full wd).mp hMapped

theorem Consistent.enter (h : s.Consistent cwd) (full : FullWatchSpecifier) : (s.enter cwd full).Consistent cwd := by
  -- a watch of the same place has the descriptor that is returned again
  have hSame {other : FullWatchSpecifier} {wd : ℕ} (hMapped : s.watchchainToWd other = some wd)
      (hPlace : placeOf cwd other.desired.2 = placeOf cwd full.desired.2) :
      wd = s.inotify.descriptor (placeOf cwd full.desired.2) := by
    have hWatched := h.watched other wd hMapped
    rw [hPlace] at hWatched
    exact (Inotify.descriptor_of_watched hWatched).symm
  constructor
  · constructor
    · intro other wd
      simp only [WatchTables.enter, Function.update_apply]
      by_cases hOther : other = full
      · subst hOther
        rw [if_pos rfl]
        split_ifs with hWd
        · simp [hWd]
        · refine ⟨fun hEq => absurd (Option.some.inj hEq).symm hWd, fun hEntries => ?_⟩
          exact absurd (hSame ((h.mapped_iff _ _).mpr hEntries) rfl) hWd
      · rw [if_neg hOther]
        split_ifs with hWd
        · rw [h.mapped_iff, hWd]
          cases hSet : s.wdToWatchchain (s.inotify.descriptor (placeOf cwd full.desired.2)) <;> simp [hOther]
        · exact h.mapped_iff other wd
    · intro wd
      simp only [WatchTables.enter, Function.update_apply]
      split_ifs
      · exact fun hEmpty => Finset.insert_ne_empty _ _ (Option.some.inj hEmpty)
      · exact h.nonempty wd
  · intro other wd hMapped
    simp only [WatchTables.enter, Function.update_apply, Inotify.add] at hMapped ⊢
    by_cases hOther : other = full
    · subst hOther
      rw [if_pos rfl] at hMapped ⊢
      exact hMapped
    · rw [if_neg hOther] at hMapped
      split_ifs with hPlace
      · rw [hSame hMapped hPlace]
      · exact h.watched other wd hMapped

theorem unmap_watchchainToWd (s : WatchTables Callback) (full other : FullWatchSpecifier) :
    (s.unmap full).watchchainToWd other = if other = full then none else s.watchchainToWd other :=
  Function.update_apply ..

section Leave

variable (s) (full : FullWatchSpecifier) (wd : ℕ) (entries : Finset FullWatchSpecifier)

theorem leave_watchchainToWd : (s.leave full wd entries).watchchainToWd = s.watchchainToWd := by
  unfold leave
  split_ifs <;> rfl

theorem leave_inotify : (s.leave full wd entries).inotify =
    if entries.erase full = ∅ then s.inotify.remove wd else s.inotify := by
  unfold leave
  split_ifs <;> rfl

theorem leave_wdToWatchchain (wd' : ℕ) : (s.leave full wd entries).wdToWatchchain wd' =
    if wd' = wd then (if entries.erase full = ∅ then none else some (entries.erase full))
    else s.wdToWatchchain wd' := by
  unfold leave
  split_ifs with hLast hWd hWd <;> simp [hWd]

theorem leave_unmap : (s.unmap full).leave full wd entries = (s.leave full wd entries).unmap full := by
  unfold leave
  split_ifs <;> rfl

end Leave

/-- A watch leaves both maps. -/
theorem Consistent.remove (h : s.Consistent cwd) {entries : Finset FullWatchSpecifier}
    (hMapped : s.watchchainToWd full = some wd) (hEntries : s.wdToWatchchain wd = some entries) :
    ((s.leave full wd entries).unmap full).Consistent cwd := by
  have hSets (wd' : ℕ) : ((s.leave full wd entries).unmap full).wdToWatchchain wd' =
      if wd' = wd then (if entries.erase full = ∅ then none else some (entries.erase full))
      else s.wdToWatchchain wd' :=
    s.leave_wdToWatchchain full wd entries wd'
  have hMap (other : FullWatchSpecifier) : ((s.leave full wd entries).unmap full).watchchainToWd other =
      if other = full then none else s.watchchainToWd other := by
    rw [unmap_watchchainToWd, leave_watchchainToWd]
  have hIff (other : FullWatchSpecifier) (wd' : ℕ) :
      ((s.leave full wd entries).unmap full).watchchainToWd other = some wd' ↔
        ∃ left, ((s.leave full wd entries).unmap full).wdToWatchchain wd' = some left ∧ other ∈ left := by
    rw [hSets, hMap]
    by_cases hOther : other = full
    · subst hOther
      rw [if_pos rfl]
      refine ⟨nofun, ?_⟩
      rintro ⟨left, hLeft, hMem⟩
      split_ifs at hLeft with hWd
      · obtain rfl := Option.some.inj hLeft
        exact absurd hMem (Finset.notMem_erase _ _)
      · exact absurd (Option.some.inj (((h.mapped_iff _ _).mpr ⟨left, hLeft, hMem⟩).symm.trans hMapped)) hWd
    · rw [if_neg hOther, h.mapped_iff]
      split_ifs with hWd hLast
      · rw [hWd, hEntries]
        have hGone : other ∉ entries := fun hMem =>
          Finset.notMem_empty other (hLast ▸ Finset.mem_erase.mpr ⟨hOther, hMem⟩)
        simpa using hGone
      · rw [hWd, hEntries]
        simp [hOther]
      · rfl
  constructor
  · refine ⟨hIff, fun wd' => ?_⟩
    rw [hSets]
    split_ifs with hWd hLast
    · nofun
    · exact fun hEmpty => hLast (Option.some.inj hEmpty)
    · exact h.nonempty wd'
  · intro other wd' hOther
    obtain ⟨left, hLeft, -⟩ := (hIff other wd').mp hOther
    rw [hSets] at hLeft
    rw [hMap] at hOther
    split_ifs at hOther
    have hPlace := h.watched other wd' hOther
    show (s.leave full wd entries).inotify.watched _ = _
    rw [leave_inotify]
    by_cases hLast : entries.erase full = ∅
    · -- the descriptor that is removed has no watch left
      have hWd : wd' ≠ wd := by
        rintro rfl
        rw [if_pos rfl, if_pos hLast] at hLeft
        cases hLeft
      rw [if_pos hLast]
      show (if s.inotify.watched _ = some wd then none else s.inotify.watched _) = _
      rw [hPlace, if_neg fun hSame => hWd (Option.some.inj hSame)]
    · rwa [if_neg hLast]

/-- A watch that is not mapped is in no set. -/
theorem Consistent.unmap_none (h : s.Consistent cwd) (hNone : s.watchchainToWd full = none) :
    (s.unmap full).Consistent cwd := by
  refine h.of_same (funext fun other => ?_) rfl rfl
  rw [unmap_watchchainToWd]
  split_ifs with hOther
  · rw [hOther, hNone]
  · rfl

theorem Consistent.freeOne (h : s.Consistent cwd) (full : FullWatchSpecifier) : (s.freeOne full).Consistent cwd := by
  unfold WatchTables.freeOne
  cases hMapped : s.watchchainToWd full with
  | none => exact h.unmap_none hMapped
  | some wd =>
      obtain ⟨entries, hEntries, -⟩ := h.entries hMapped
      dsimp only
      rw [hEntries]
      exact h.remove hMapped hEntries

theorem Consistent.dropOne (h : s.Consistent cwd) (full : FullWatchSpecifier) : (s.dropOne full).Consistent cwd := by
  unfold WatchTables.dropOne
  cases hMapped : s.watchchainToWd full with
  | none => exact h
  | some wd =>
      obtain ⟨entries, hEntries, -⟩ := h.entries hMapped
      dsimp only
      rw [hEntries]
      dsimp only
      rw [leave_unmap]
      exact h.remove hMapped hEntries

theorem Consistent.foldl {step : WatchTables Callback → FullWatchSpecifier → WatchTables Callback}
    (hStep : ∀ (t : WatchTables Callback) full, t.Consistent cwd → (step t full).Consistent cwd)
    (h : s.Consistent cwd) (entries : List FullWatchSpecifier) : (entries.foldl step s).Consistent cwd := by
  induction entries generalizing s with
  | nil => exact h
  | cons full entries ih => exact ih (hStep s full h)

theorem Consistent.freeWatch (h : s.Consistent cwd) (specifier : WatchChainSpecifier) :
    (s.freeWatch specifier).Consistent cwd := by
  unfold WatchTables.freeWatch
  split
  · exact h
  · exact (h.foldl (fun t full ht => ht.freeOne full) _).of_same rfl rfl rfl

section Teardown

/-! What `teardownWatch` does to both maps. -/

theorem tearOne_watchchainToWd (s : WatchTables Callback) (full other : FullWatchSpecifier) :
    (s.tearOne full).watchchainToWd other = if other = full then none else s.watchchainToWd other := by
  unfold tearOne
  split
  · next hNone =>
      split_ifs with hOther
      · rw [hOther, hNone]
      · rfl
  · exact unmap_watchchainToWd ..

theorem tearOne_wdToWatchchain (s : WatchTables Callback) (full : FullWatchSpecifier) (wd : ℕ) :
    (s.tearOne full).wdToWatchchain wd = if s.watchchainToWd full = some wd then none else s.wdToWatchchain wd := by
  unfold tearOne
  split
  · next hNone => rw [hNone, if_neg nofun]
  · next wd' hSome =>
      show Function.update s.wdToWatchchain wd' none wd = _
      rw [hSome, Function.update_apply]
      simp only [Option.some.injEq, eq_comm]

theorem tearOne_watched {s : WatchTables Callback} {full : FullWatchSpecifier} {place : Path} {wd : ℕ}
    (hFull : s.watchchainToWd full ≠ some wd) (h : s.inotify.watched place = some wd) :
    (s.tearOne full).inotify.watched place = some wd := by
  unfold tearOne
  split
  · exact h
  · next wd' hSome =>
      show (if s.inotify.watched place = some wd' then none else s.inotify.watched place) = some wd
      rw [h, if_neg fun hSame => hFull (hSome.trans hSame.symm)]

/-- The torn watches are unmapped, and the sets of their descriptors are gone. -/
theorem foldl_tearOne (entries : List FullWatchSpecifier) (s : WatchTables Callback) :
    (∀ other, (entries.foldl tearOne s).watchchainToWd other = if other ∈ entries then none else s.watchchainToWd other) ∧
      (∀ wd, (entries.foldl tearOne s).wdToWatchchain wd =
        if ∃ full ∈ entries, s.watchchainToWd full = some wd then none else s.wdToWatchchain wd) ∧
      ∀ place wd, (∀ full ∈ entries, s.watchchainToWd full ≠ some wd) → s.inotify.watched place = some wd →
        (entries.foldl tearOne s).inotify.watched place = some wd := by
  induction entries generalizing s with
  | nil => exact ⟨fun _ => rfl, fun wd => by simp, fun _ _ _ h => h⟩
  | cons full entries ih =>
      obtain ⟨hMap, hSets, hWatched⟩ := ih (s.tearOne full)
      refine ⟨fun other => ?_, fun wd => ?_, fun place wd hFree h => ?_⟩
      · rw [List.foldl_cons, hMap, tearOne_watchchainToWd]
        by_cases hOther : other = full <;> simp [hOther]
      · rw [List.foldl_cons, hSets, tearOne_wdToWatchchain]
        simp only [tearOne_watchchainToWd, List.mem_cons, exists_eq_or_imp]
        by_cases hFull : s.watchchainToWd full = some wd
        · simp [hFull]
        · have hRest : (∃ other ∈ entries, (if other = full then none else s.watchchainToWd other) = some wd) ↔
              ∃ other ∈ entries, s.watchchainToWd other = some wd := by
            refine exists_congr fun other => and_congr_right fun _ => ?_
            split_ifs with hOther
            · simp [hOther, hFull]
            · rfl
          simp only [hRest, hFull, if_false, false_or]
      · rw [List.foldl_cons]
        obtain ⟨hFirst, hRest⟩ := List.forall_mem_cons.mp hFree
        refine hWatched place wd (fun other hMem hOther => hRest other hMem ?_) (tearOne_watched hFirst h)
        rw [tearOne_watchchainToWd] at hOther
        split_ifs at hOther
        exact hOther

/-- The watches that `teardownWatch` removes: those of the listener's first chain. -/
def tornWatches (s : WatchTables Callback) (specifier : WatchChainSpecifier) : List FullWatchSpecifier :=
  ((s.watchChains specifier).getD []).flatten.map fun desired => ⟨desired, specifier, 0⟩

/-- No other watch has a descriptor of the listener's first chain. -/
def Unshared (s : WatchTables Callback) (specifier : WatchChainSpecifier) : Prop :=
  ∀ full ∈ s.tornWatches specifier, ∀ other wd, s.watchchainToWd full = some wd → s.watchchainToWd other = some wd →
    other ∈ s.tornWatches specifier

variable {specifier : WatchChainSpecifier}

theorem specifier_of_torn (h : full ∈ s.tornWatches specifier) : full.specifier = specifier := by
  obtain ⟨desired, -, rfl⟩ := List.mem_map.mp h
  rfl

/-- The maps after a teardown are those that the loop leaves. -/
theorem teardownWatch_maps (s : WatchTables Callback) (specifier : WatchChainSpecifier) :
    (s.teardownWatch specifier).watchchainToWd = ((s.tornWatches specifier).foldl tearOne s).watchchainToWd ∧
      (s.teardownWatch specifier).wdToWatchchain = ((s.tornWatches specifier).foldl tearOne s).wdToWatchchain ∧
      (s.teardownWatch specifier).inotify = ((s.tornWatches specifier).foldl tearOne s).inotify := by
  unfold teardownWatch tornWatches
  cases s.watchChains specifier <;> exact ⟨rfl, rfl, rfl⟩

theorem Consistent.teardownWatch (h : s.Consistent cwd) (hUnshared : s.Unshared specifier) :
    (s.teardownWatch specifier).Consistent cwd := by
  obtain ⟨hMapEq, hSetsEq, hInotifyEq⟩ := s.teardownWatch_maps specifier
  obtain ⟨hMap, hSets, hWatched⟩ := foldl_tearOne (s.tornWatches specifier) s
  refine Consistent.of_same ?_ hMapEq hSetsEq hInotifyEq
  have hFree {other : FullWatchSpecifier} {wd : ℕ} (hOther : other ∉ s.tornWatches specifier)
      (hMapped : s.watchchainToWd other = some wd) : ∀ full ∈ s.tornWatches specifier, s.watchchainToWd full ≠ some wd :=
    fun full hFull hSame => hOther (hUnshared full hFull other wd hSame hMapped)
  constructor
  · constructor
    · intro other wd
      rw [hMap, hSets]
      constructor
      · intro hMapped
        split_ifs at hMapped with hTorn
        have hFreeOfOthers := hFree hTorn hMapped
        rw [if_neg fun ⟨full, hFull, hSame⟩ => hFreeOfOthers full hFull hSame]
        exact (h.mapped_iff other wd).mp hMapped
      · rintro ⟨entries, hEntries, hMem⟩
        split_ifs at hEntries with hGone
        have hMapped := (h.mapped_iff other wd).mpr ⟨entries, hEntries, hMem⟩
        rw [if_neg fun hTorn => hGone ⟨other, hTorn, hMapped⟩]
        exact hMapped
    · intro wd
      rw [hSets]
      split_ifs
      · nofun
      · exact h.nonempty wd
  · intro other wd hMapped
    rw [hMap] at hMapped
    split_ifs at hMapped with hTorn
    exact hWatched _ wd (hFree hTorn hMapped) (h.watched other wd hMapped)

/-- A shared descriptor leaves the maps inconsistent. -/
theorem Unshared.of_inverse (h : (s.teardownWatch specifier).Inverse) : s.Unshared specifier := by
  obtain ⟨hMapEq, hSetsEq, -⟩ := s.teardownWatch_maps specifier
  obtain ⟨hMap, hSets, -⟩ := foldl_tearOne (s.tornWatches specifier) s
  intro full hFull other wd hMapped hOther
  by_contra hKept
  have hStays : (s.teardownWatch specifier).watchchainToWd other = some wd := by
    rw [hMapEq, hMap, if_neg hKept]
    exact hOther
  obtain ⟨entries, hEntries, -⟩ := h.entries hStays
  rw [hSetsEq, hSets, if_pos ⟨full, hFull, hMapped⟩] at hEntries
  cases hEntries

/-- A teardown leaves the watches of other listeners mapped. -/
theorem teardownWatch_other (h : full.specifier ≠ specifier) :
    (s.teardownWatch specifier).watchchainToWd full = s.watchchainToWd full := by
  obtain ⟨hMapEq, -, -⟩ := s.teardownWatch_maps specifier
  rw [hMapEq, (foldl_tearOne (s.tornWatches specifier) s).1, if_neg fun hTorn => h (specifier_of_torn hTorn)]

end Teardown

end WatchTables

namespace FileBackend

open WatchTables

variable {Callback : Type} {b : FileBackend} {s t : WatchTables Callback} {listenerName notificationRule : Str}

/-- The listener that is removed shares no descriptor. -/
def ListenerUnshared (s : WatchTables Callback) (listenerName notificationRule : Str) : Prop :=
  ∀ l ∈ s.nodeListeners.under notificationRule, l.name = listenerName →
    s.Unshared ⟨notificationRule, listenerName, l.childNotify⟩

/-- No name is listed twice under a rule, so that at most one listener is removed. -/
theorem deregisterNodeListener_cases (s : WatchTables Callback) (listenerName notificationRule : Str) :
    ((∀ l ∈ s.nodeListeners.under notificationRule, l.name ≠ listenerName) ∧
        deregisterNodeListener listenerName notificationRule s =
          { s with nodeListeners := s.nodeListeners.deregisterNodeListener listenerName notificationRule }) ∨
      ∃ l ∈ s.nodeListeners.under notificationRule, l.name = listenerName ∧
        (∀ other ∈ s.nodeListeners.under notificationRule, other.name = listenerName → other = l) ∧
        ∃ table, deregisterNodeListener listenerName notificationRule s =
          { s.teardownWatch ⟨notificationRule, listenerName, l.childNotify⟩ with nodeListeners := table } := by
  have hNames := (s.nodeListeners.nodup_under notificationRule).sublist
    ((List.filter_sublist (p := fun l => decide (l.name = listenerName))).map ListenerInfo.name)
  have hFilter : ∀ l, l ∈ (s.nodeListeners.under notificationRule).filter (fun l => l.name = listenerName) ↔
      l ∈ s.nodeListeners.under notificationRule ∧ l.name = listenerName := by
    simp [List.mem_filter]
  have hUnfold : deregisterNodeListener listenerName notificationRule s =
      { ((s.nodeListeners.under notificationRule).filter fun l => l.name = listenerName).foldl
          (fun s l => s.teardownWatch ⟨notificationRule, l.name, l.childNotify⟩) s with
        nodeListeners := (((s.nodeListeners.under notificationRule).filter fun l => l.name = listenerName).foldl
          (fun s l => s.teardownWatch ⟨notificationRule, l.name, l.childNotify⟩) s).nodeListeners.deregisterNodeListener
            listenerName notificationRule } := rfl
  rw [hUnfold]
  cases hListeners : (s.nodeListeners.under notificationRule).filter (fun l => l.name = listenerName) with
  | nil =>
      rw [hListeners] at hFilter
      exact .inl ⟨fun l hl hName => (List.not_mem_nil) ((hFilter l).mpr ⟨hl, hName⟩), rfl⟩
  | cons l rest =>
      rw [hListeners] at hFilter hNames
      obtain ⟨hMem, hName⟩ := (hFilter l).mp List.mem_cons_self
      have hRest : rest = [] := by
        cases rest with
        | nil => rfl
        | cons second rest =>
            have hSecond := ((hFilter second).mp (by simp)).2
            simp [hName, hSecond] at hNames
      subst hRest
      refine .inr ⟨l, hMem, hName, fun other hOther hSame => ?_, _, by rw [List.foldl_cons, List.foldl_nil, hName]⟩
      exact List.mem_singleton.mp ((hFilter other).mpr ⟨hOther, hSame⟩)

theorem deregister_of_absent (h : ∀ l ∈ s.nodeListeners.under notificationRule, l.name ≠ listenerName) :
    deregisterNodeListener listenerName notificationRule s =
      { s with nodeListeners := s.nodeListeners.deregisterNodeListener listenerName notificationRule } := by
  rcases deregisterNodeListener_cases s listenerName notificationRule with ⟨-, hSame⟩ | ⟨l, hl, hName, -⟩
  · exact hSame
  · exact absurd hName (h l hl)

theorem consistent_deregister {cwd : Path} (h : s.Consistent cwd)
    (hUnshared : ListenerUnshared s listenerName notificationRule) :
    (deregisterNodeListener listenerName notificationRule s).Consistent cwd := by
  rcases deregisterNodeListener_cases s listenerName notificationRule with ⟨-, hSame⟩ | ⟨l, hl, hName, -, table, hSame⟩
  · rw [hSame]
    exact h.of_same rfl rfl rfl
  · rw [hSame]
    exact (h.teardownWatch (hUnshared l hl hName)).of_same rfl rfl rfl

/-- The maps are inverse after a listener is removed exactly when it shared no descriptor. -/
theorem inverse_deregister_iff {cwd : Path} (h : s.Consistent cwd) :
    (deregisterNodeListener listenerName notificationRule s).Inverse ↔
      ListenerUnshared s listenerName notificationRule := by
  refine ⟨fun hInverse => ?_, fun hUnshared => (consistent_deregister h hUnshared).toInverse⟩
  rcases deregisterNodeListener_cases s listenerName notificationRule with ⟨hNone, -⟩ | ⟨l, -, -, hOnly, table, hSame⟩
  · exact fun l hl hName => absurd hName (hNone l hl)
  · intro other hOther hName
    rw [hOnly other hOther hName]
    rw [hSame] at hInverse
    exact Unshared.of_inverse ⟨hInverse.mapped_iff, hInverse.nonempty⟩

theorem deregister_other {full : FullWatchSpecifier}
    (hFull : ¬(full.specifier.labelRule = notificationRule ∧ full.specifier.listenerName = listenerName)) :
    (deregisterNodeListener listenerName notificationRule s).watchchainToWd full = s.watchchainToWd full := by
  rcases deregisterNodeListener_cases s listenerName notificationRule with ⟨-, hSame⟩ | ⟨l, -, -, -, table, hSame⟩
  · rw [hSame]
  · rw [hSame]
    refine teardownWatch_other fun hSpecifier => hFull ?_
    rw [hSpecifier]
    exact ⟨rfl, rfl⟩

section Events

/-- What the calls that add and remove watches keep. -/
structure WatchInvariant (cwd : Path) (I : WatchTables Callback → Prop) : Prop where
  setChains : ∀ s chains, I s → I { s with watchChains := chains }
  enter : ∀ s full, I s → I (s.enter cwd full)
  freeWatch : ∀ s specifier, I s → I (s.freeWatch specifier)
  dropOne : ∀ s full, I s → I (s.dropOne full)

theorem watchInvariant_consistent (cwd : Path) : WatchInvariant cwd (Consistent cwd : WatchTables Callback → Prop) where
  setChains _ _ h := h.of_same rfl rfl rfl
  enter _ full h := h.enter full
  freeWatch _ specifier h := h.freeWatch specifier
  dropOne _ full h := h.dropOne full

variable {I : WatchTables Callback → Prop} (hI : WatchInvariant b.cwd I) (fs : FileSystem) (callable : Callback → Bool)
  (depth : ℕ)

/-- The chain that is found is entered as far as its paths exist. -/
theorem setupWatch_of_collect {fs : FileSystem} {depth : ℕ} (specifier : WatchChainSpecifier)
    {chains : List WatchChain} (h : b.collectWatchPaths fs depth specifier.labelRule specifier.childNotify = .ok chains)
    (s : WatchTables Callback) :
    b.setupWatch fs depth specifier s = (.ok (), chains.zipIdx.foldl
      (fun s entry => entry.1.foldl (fun s desired =>
        if fs.fileExists b.cwd desired.2 then s.enter b.cwd ⟨desired, specifier, entry.2⟩ else s) s)
      { s with watchChains := Function.update s.watchChains specifier (some chains) }) := by
  refine (bind_inspect (f := fun _ => b.collectWatchPaths fs depth specifier.labelRule specifier.childNotify) h).trans ?_
  refine (bind_change _ _ _).trans (forEach_of_ok _ (fun entry s => forEach_of_ok _ (fun desired s => ?_) _ _) _ _)
  split_ifs <;> rfl

theorem keeps_announce (b : FileBackend) (labelRule : Str) : Keeps I (b.announce fs callable labelRule) :=
  keeps_bind (keeps_inspect _) fun _ _ _ => keeps_bind (keeps_inspect _) fun _ _ _ => keeps_pure ()

theorem keeps_announceGone (b : FileBackend) (file labelRule : Str) :
    Keeps I (b.announceGone fs callable file labelRule) := by
  refine keeps_bind (keeps_inspect _) fun _ ending _ => keeps_bind (keeps_inspect _) fun _ node _ => ?_
  split_ifs
  · exact keeps_bind (keeps_inspect _) fun _ _ _ => keeps_pure ()
  · exact keeps_pure ()

include hI

theorem keeps_setupWatch (specifier : WatchChainSpecifier) : Keeps I (b.setupWatch fs depth specifier) := by
  refine keeps_bind (keeps_inspect _) fun _ chains _ => keeps_bind (fun s h => hI.setChains s _ h) fun _ _ _ => ?_
  refine keeps_forEach fun (chain, index) _ => keeps_forEach fun desired _ => ?_
  split_ifs
  · exact fun s h => hI.enter s _ h
  · exact keeps_pure ()

theorem keeps_rebuild (specifier : WatchChainSpecifier) : Keeps I (b.rebuild fs callable depth specifier) :=
  keeps_bind (keeps_announce fs callable b _) fun _ _ _ =>
    keeps_bind (fun s h => hI.freeWatch s specifier h) fun _ _ _ => keeps_setupWatch hI fs depth specifier

theorem keeps_enterRest (specifier : WatchChainSpecifier) (index : ℕ) (rest : List DesiredWatch) :
    Keeps I (b.enterRest fs callable depth specifier index rest) := by
  induction rest with
  | nil => exact keeps_pure ()
  | cons desired rest ih =>
      rw [enterRest]
      split_ifs with hExists hLast
      · exact keeps_bind (fun s h => hI.enter s _ h) fun _ _ _ => keeps_rebuild hI fs callable depth specifier
      · exact keeps_bind (fun s h => hI.enter s _ h) fun _ _ _ => ih
      · exact keeps_pure ()

theorem keeps_onCreated (name : Str) (full : FullWatchSpecifier) :
    Keeps I (b.onCreated fs callable depth name full) := by
  rw [onCreated]
  split_ifs
  · exact keeps_rebuild hI fs callable depth _
  · refine keeps_bind (keeps_look _) fun _ found _ => ?_
    cases found with
    | none => exact keeps_pure ()
    | some chain =>
        refine keeps_bind (keeps_inspect _) fun _ rest _ => ?_
        split_ifs
        · exact keeps_enterRest hI fs callable depth _ _ rest
        · exact keeps_pure ()

theorem keeps_onDeleted (name : Str) (full : FullWatchSpecifier) : Keeps I (b.onDeleted fs callable name full) := by
  rw [onDeleted]
  split_ifs
  · refine keeps_bind (keeps_look _) fun _ found _ => ?_
    cases found with
    | none => exact keeps_pure ()
    | some chains =>
        refine keeps_bind (keeps_inspect _) fun _ file _ => keeps_bind (keeps_look _) fun _ watched _ => ?_
        split_ifs
        · exact keeps_bind (keeps_announceGone fs callable b _ _) fun _ _ _ s h => hI.dropOne s _ h
        · exact keeps_pure ()
  · refine keeps_bind (keeps_look _) fun _ found _ => ?_
    cases found with
    | none => exact keeps_pure ()
    | some chain =>
        refine keeps_bind (keeps_inspect _) fun _ rest _ => ?_
        cases rest with
        | nil => exact keeps_pure ()
        | cons next rest =>
            dsimp only
            split_ifs
            · exact fun s h => hI.dropOne s _ h
            · exact keeps_pure ()

end Events

/-- A listener that the call removes shares no descriptor. -/
def WatchAction.RemovesUnshared (s : WatchTables Callback) : WatchAction Callback → Prop
  | register _ _ listenerName notificationRule _ _ => ListenerUnshared s listenerName notificationRule
  | deregister listenerName notificationRule => ListenerUnshared s listenerName notificationRule
  | _ => True

theorem consistent_step {callable : Callback → Bool} {action : WatchAction Callback} (h : s.Consistent b.cwd)
    (hUnshared : action.RemovesUnshared s) (hStep : watchStep b callable s action = some t) : t.Consistent b.cwd := by
  have hRun : (action.run b callable s).2.Consistent b.cwd := by
    cases action with
    | register fs depth listenerName notificationRule childNotify callback =>
        refine state_bind (consistent_deregister h hUnshared) fun _ => ?_
        exact keeps_bind (keeps_setupWatch (watchInvariant_consistent b.cwd) fs depth _) fun _ _ _ _ h =>
          h.of_same rfl rfl rfl
    | deregister listenerName notificationRule => exact consistent_deregister h hUnshared
    | created fs depth wd name order =>
        exact keeps_forEach (fun full _ => keeps_onCreated (watchInvariant_consistent b.cwd) fs callable depth name full) s h
    | deleted fs wd name order =>
        exact keeps_forEach (fun full _ => keeps_onDeleted (watchInvariant_consistent b.cwd) fs callable name full) s h
  rw [watchStep] at hStep
  split_ifs at hStep
  split at hStep
  · cases hStep
  · next result after hDefined hCall =>
      obtain rfl := Option.some.inj hStep
      rwa [hCall] at hRun

/-- As long as every listener that is removed shares no descriptor, the maps are inverse in every
reached state. The removal of a listener then leaves the watches of all others in both maps, and
one that shares a descriptor leaves the maps inconsistent. -/
theorem inverse_of_reaches {callable : Callback → Bool}
    (hRun : Reaches (watchStep b callable) (fun s action => action.RemovesUnshared s) empty s) :
    s.Inverse ∧ ∀ listenerName notificationRule,
      ((deregisterNodeListener listenerName notificationRule s).Inverse ↔
        ListenerUnshared s listenerName notificationRule) ∧
      (ListenerUnshared s listenerName notificationRule → ∀ full wd, s.watchchainToWd full = some wd →
        ¬(full.specifier.labelRule = notificationRule ∧ full.specifier.listenerName = listenerName) →
        (deregisterNodeListener listenerName notificationRule s).watchchainToWd full = some wd ∧
          ∃ entries, (deregisterNodeListener listenerName notificationRule s).wdToWatchchain wd = some entries ∧
            full ∈ entries) := by
  have hConsistent : s.Consistent b.cwd := hRun.invariant (consistent_empty b.cwd) fun _ _ _ h hAllowed hStep =>
    consistent_step h hAllowed hStep
  refine ⟨hConsistent.toInverse, fun name rule => ⟨inverse_deregister_iff hConsistent, ?_⟩⟩
  intro hUnshared full wd hMapped hOther
  have hStays := (deregister_other hOther).trans hMapped
  exact ⟨hStays, ((inverse_deregister_iff hConsistent).mpr hUnshared).entries hStays⟩

/-- A backend on the root directory. -/
def atRoot : FileBackend where
  basePath := str "/"
  cwd := []
  order := ⟨FileSystem.names, FileSystem.perm_names⟩
  floats := ⟨fun _ => [], fun _ => 0, fun _ => [], fun _ => 0⟩
  endsWithSlash := by decide
  noNul := by decide
  cwdValid := validName_nil

/-- The watches of a node in the empty root directory. -/
theorem collectWatchPaths_atRoot {label : Str} (h : label = str "A" ∨ label = str "B") :
    atRoot.collectWatchPaths .onlyRoot 1 label false =
      .ok [[(.entries, str "/"), (.contents, str "/" ++ label ++ str ".node")]] := by
  have hDirectories : atRoot.directoryWatchChain (str "/") [] = .ok [(.entries, str "/")] := by
    rw [directoryWatchChain]
    rfl
  have hReaddir : FileSystem.onlyRoot.readdir atRoot.order atRoot.cwd (str "/") = .ok [] := rfl
  have hParent : getNodeParentPath atRoot.basePath label = .ok (str "/") := by rcases h with rfl | rfl <;> rfl
  have hName : getNodeName atRoot.basePath label = .ok label := by rcases h with rfl | rfl <;> rfl
  have hContents : atRoot.readContentFileNames label .onlyRoot = .ok [] := by
    rw [readContentFileNames, hParent, hName]
    simp [hReaddir]
  rw [collectWatchPaths, nodeWatchChain, hParent]
  simp [hDirectories, hContents]
  rfl

def registerAtRoot (label : Str) : WatchAction Unit := .register .onlyRoot 1 (str "L") label false ()

def watchOf (label : Str) : FullWatchSpecifier := ⟨(.entries, str "/"), ⟨label, str "L", false⟩, 0⟩

/-- The tables once a listener of a label watches the root directory. -/
def watchingRoot (label : Str) (s : WatchTables Unit) : WatchTables Unit :=
  let chains := [[(.entries, str "/"), (.contents, str "/" ++ label ++ str ".node")]]
  let t := WatchTables.enter [] { s with watchChains := Function.update s.watchChains ⟨label, str "L", false⟩ (some chains) }
    (watchOf label)
  { t with nodeListeners := t.nodeListeners.registerNodeListener (str "L") label false () }

/-- The listener of a label watches the root directory; its file is not there. -/
theorem run_registerAtRoot {label : Str} (h : label = str "A" ∨ label = str "B") (s : WatchTables Unit) :
    WatchAction.run atRoot (fun _ => true) (registerAtRoot label) s =
      (.ok (), watchingRoot label (deregisterNodeListener (str "L") label s)) := by
  have hRoot : FileSystem.onlyRoot.fileExists atRoot.cwd (str "/") = true := rfl
  have hFile : FileSystem.onlyRoot.fileExists atRoot.cwd (str "/" ++ label ++ str ".node") = false := by
    rcases h with rfl | rfl <;> rfl
  have hSetup := setupWatch_of_collect ⟨label, str "L", false⟩ (collectWatchPaths_atRoot h)
    (deregisterNodeListener (str "L") label s)
  simp only [List.zipIdx_cons, List.zipIdx_nil, List.foldl_cons, List.foldl_nil, hRoot, hFile, if_true,
    Bool.false_eq_true, if_false] at hSetup
  exact (bind_change _ _ _).trans ((bind_ok hSetup).trans rfl)

theorem step_registerAtRoot {label : Str} (h : label = str "A" ∨ label = str "B") (s : WatchTables Unit) :
    watchStep atRoot (fun _ => true) s (registerAtRoot label) =
      some (watchingRoot label (deregisterNodeListener (str "L") label s)) := by
  rw [watchStep, if_pos (by trivial), run_registerAtRoot h]

theorem inverse_of_reaches_one : (watchingRoot (str "A") (deregisterNodeListener (str "L") (str "A") empty)).Inverse :=
  (inverse_of_reaches (Reaches.single (by simp [WatchAction.RemovesUnshared, registerAtRoot, ListenerUnshared, empty])
    (step_registerAtRoot (.inl rfl) empty))).1

/-- Two listeners with a watch of the same directory. -/
def sharedRoot : WatchTables Unit :=
  watchingRoot (str "B") (deregisterNodeListener (str "L") (str "B")
    (watchingRoot (str "A") (deregisterNodeListener (str "L") (str "A") empty)))

theorem reaches_sharedRoot : Reaches (watchStep atRoot fun _ => true) anyStep empty sharedRoot :=
  (Reaches.single trivial (step_registerAtRoot (.inl rfl) empty)).tail trivial (step_registerAtRoot (.inr rfl) _)

theorem nodeListeners_watchingRoot (label : Str) (s : WatchTables Unit) :
    (watchingRoot label s).nodeListeners = s.nodeListeners.registerNodeListener (str "L") label false () := rfl

/-- Both watches have the first descriptor. -/
theorem sharedRoot_maps :
    sharedRoot.watchchainToWd (watchOf (str "A")) = some 0 ∧ sharedRoot.watchchainToWd (watchOf (str "B")) = some 0 ∧
      watchOf (str "A") ∈ sharedRoot.tornWatches ⟨str "A", str "L", false⟩ ∧
      ⟨str "L", false, ()⟩ ∈ sharedRoot.nodeListeners.under (str "A") := by
  have hAB : str "A" ≠ str "B" := by decide
  have hFirst : deregisterNodeListener (str "L") (str "A") (empty : WatchTables Unit) = _ :=
    deregister_of_absent (by simp [empty])
  have hAbsent : ∀ l ∈ (watchingRoot (str "A") (deregisterNodeListener (str "L") (str "A") empty)).nodeListeners.under
      (str "B"), l.name ≠ str "L" := by
    rw [nodeListeners_watchingRoot, ListenerTable.under_register, if_neg hAB.symm, hFirst]
    simp [empty, ListenerTable.under_deregister]
  rw [sharedRoot, deregister_of_absent hAbsent, hFirst]
  refine ⟨by decide, by decide, by decide, ?_⟩
  rw [nodeListeners_watchingRoot, ListenerTable.under_register, if_neg hAB, ListenerTable.under_deregister, if_neg hAB,
    nodeListeners_watchingRoot, ListenerTable.under_register, if_pos rfl]
  simp

/-- Without the listener of `A`, the listener of `B` has a descriptor without a set. -/
theorem not_inverse_sharedRoot : ∃ s : WatchTables Unit,
    Reaches (watchStep atRoot fun _ => true) anyStep empty s ∧ ¬s.Inverse := by
  have hStep : watchStep atRoot (fun _ => true) sharedRoot (.deregister (str "L") (str "A")) =
      some (deregisterNodeListener (str "L") (str "A") sharedRoot) := rfl
  refine ⟨deregisterNodeListener (str "L") (str "A") sharedRoot, reaches_sharedRoot.tail trivial hStep, fun hInverse => ?_⟩
  obtain ⟨hA, hB, hTorn, hListener⟩ := sharedRoot_maps
  have hShared : ¬sharedRoot.Unshared ⟨str "A", str "L", false⟩ := fun hUnshared =>
    absurd (specifier_of_torn (hUnshared _ hTorn _ 0 hA hB)) (by decide)
  rcases deregisterNodeListener_cases sharedRoot (str "L") (str "A") with ⟨hAbsent, -⟩ | ⟨l, -, -, hOnly, table, hSame⟩
  · exact hAbsent _ hListener rfl
  · rw [← hOnly _ hListener rfl] at hSame
    rw [hSame] at hInverse
    exact hShared (Unshared.of_inverse ⟨hInverse.mapped_iff, hInverse.nonempty⟩)

end FileBackend
end Wwatp
