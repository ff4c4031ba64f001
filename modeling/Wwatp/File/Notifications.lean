import Wwatp.File.WatchTables

/-! The listeners that a `FileBackend` notifies, and those that a `SimpleBackend` with the same
registrations notifies. -/
namespace Wwatp

open Cxx Cxx.Effectful

namespace ListenerTable

variable {Callback : Type} {t : ListenerTable Callback} {label rule : Str}

theorem partialLabelRuleMatch_self : partialLabelRuleMatch label label = true ↔ NoQuery label := by
  constructor
  · intro hMatch hQuery
    -- what is cut off makes the rule longer than the label
    have hShort : (stripQuery label).length < label.length := by
      rw [stripQuery]
      cases hFind : Str.find label (chr '?') with
      | none => exact absurd hQuery (find_eq_none.mp hFind)
      | some pos =>
          have hPos := (List.findIdx?_eq_some_iff_getElem.mp hFind).1
          simp only [List.length_take]
          omega
    have hNe : stripQuery label ≠ label := fun hSame => absurd (congrArg List.length hSame) (Nat.ne_of_lt hShort)
    simp [partialLabelRuleMatch, hNe, hShort] at hMatch
  · intro hQuery
    rw [partialLabelRuleMatch_iff hQuery]

/-- The label itself is the first rule that the walk comes to. -/
theorem walksTo_self (h : label ∈ t.rules) : t.WalksTo label label ↔ NoQuery label := by
  rw [← partialLabelRuleMatch_self]
  constructor
  · exact fun hWalks => hWalks.2 label h (by simp) (by simp)
  · refine fun hMatch => ⟨by simp, fun other _ hAbove hBelow => ?_⟩
    rwa [Std.LawfulEqCmp.eq_of_compare (Std.OrientedCmp.isLE_antisymm hBelow hAbove)]

end ListenerTable

namespace FileBackend

open ListenerTable

variable {Callback : Type} {callable : Callback → Bool} {t : ListenerTable Callback} {label rule : Str}

theorem stripQuery_isPrefix (label : Str) : stripQuery label <+: label := by
  rw [stripQuery]
  split
  · exact List.prefix_rfl
  · exact List.take_prefix _ _

/-- The loop's condition has its arguments the other way round: no rule up to the label passes it
but the label. -/
theorem partialLabelRuleMatch_swapped (hLe : (compare rule label).isLE) :
    partialLabelRuleMatch rule label = true ↔ rule = label ∧ NoQuery label := by
  constructor
  · intro hMatch
    have hPrefix : label <+: stripQuery rule := by
      unfold partialLabelRuleMatch at hMatch
      dsimp only at hMatch
      split_ifs at hMatch with hSame
      · rw [hSame]
      · exact List.isPrefixOf_iff_prefix.mp hMatch
    have hGe := Str.compare_isLE_of_isPrefix (hPrefix.trans (stripQuery_isPrefix rule))
    obtain rfl := Std.LawfulEqCmp.eq_of_compare (Std.OrientedCmp.isLE_antisymm hLe hGe)
    exact ⟨rfl, partialLabelRuleMatch_self.mp hMatch⟩
  · rintro ⟨rfl, hQuery⟩
    exact partialLabelRuleMatch_self.mpr hQuery

theorem notifyRule_self (listeners : List (ListenerInfo Callback)) :
    notifyRule callable label label listeners = .ok listeners := by
  induction listeners with
  | nil => rfl
  | cons listener rest ih =>
      rw [notifyRule, shouldNotify, if_pos rfl, ih]
      rfl

/-- The listeners of the label are called, and no others. -/
theorem notifyListeners_eq (t : ListenerTable Callback) (label : Str) :
    FileBackend.notifyListeners callable t label =
      .ok (if chr '?' ∈ label then [] else (t.under label).map fun listener => (label, listener)) := by
  have hBelow : ∀ entry ∈ entriesUpTo t.rules label, (compare entry.1 label).isLE := fun entry hEntry =>
    (mem_entriesUpTo.mp hEntry).2
  have hStored : ∀ listeners, (label, listeners) ∈ entriesUpTo t.rules label ↔ t.rules[label]? = some listeners := by
    simp [mem_entriesUpTo]
  have hDescending := entriesUpTo_descending t.rules label
  rw [FileBackend.notifyListeners]
  cases hWalk : entriesUpTo t.rules label with
  | nil =>
      rw [hWalk] at hStored
      have hNone : t.rules[label]? = none := Option.eq_none_iff_forall_ne_some.mpr fun listeners hSome =>
        List.not_mem_nil ((hStored listeners).mpr hSome)
      simp [notifyWalk, under, hNone]
  | cons first before =>
      obtain ⟨found, listeners⟩ := first
      rw [hWalk] at hStored hBelow hDescending
      have hFound := hBelow (found, listeners) List.mem_cons_self
      have hLater : ∀ entry ∈ before, entry.1 ≠ label := by
        rintro entry hEntry rfl
        have hLess := (List.pairwise_cons.mp hDescending).1 entry hEntry
        rw [← Std.OrientedCmp.gt_iff_lt] at hLess
        rw [hLess] at hFound
        cases hFound
      have hRest : notifyWalk callable label before = .ok [] := by
        cases before with
        | nil => rfl
        | cons second before =>
            refine if_neg fun hMatch => hLater second List.mem_cons_self ?_
            exact ((partialLabelRuleMatch_swapped (hBelow second (by simp))).mp hMatch).1
      rw [notifyWalk]
      by_cases hSelf : found = label ∧ NoQuery label
      · rw [if_pos ((partialLabelRuleMatch_swapped hFound).mpr hSelf)]
        obtain ⟨rfl, hQuery⟩ := hSelf
        have hUnder : t.under found = listeners := by
          rw [under, (hStored listeners).mp List.mem_cons_self, Option.getD_some]
        rw [notifyRule_self, hRest, if_neg hQuery, hUnder]
        simp
      · rw [if_neg fun hMatch => hSelf ((partialLabelRuleMatch_swapped hFound).mp hMatch)]
        by_cases hQuery : chr '?' ∈ label
        · rw [if_pos hQuery]
        · have hAbsent : t.rules[label]? = none := by
            refine Option.eq_none_iff_forall_ne_some.mpr fun others hSome => ?_
            rcases List.mem_cons.mp ((hStored others).mpr hSome) with hSame | hMem
            · exact hSelf ⟨(Prod.mk.inj hSame).1.symm, hQuery⟩
            · exact hLater _ hMem rfl
          rw [if_neg hQuery, under, hAbsent]
          rfl

/-- Both backends return and call the same registrations, each as often. -/
def SameCalls (callable : Callback → Bool) (file simple : ListenerTable Callback) (label : Str) : Prop :=
  ∃ fileCalls calls, FileBackend.notifyListeners callable file label = .ok fileCalls ∧
    simple.notifyListeners label = .ok calls ∧ fileCalls.Perm calls

/-- A `SimpleBackend` that walks past the label itself calls nobody there. -/
def OnlyExact (t : ListenerTable Callback) (label : Str) : Prop :=
  ∀ reg ∈ t.registrations, t.WalksTo label reg.1 → reg.1 ≠ label → reg.2.childNotify = true →
    checkLabelRuleOverlap label reg.1 = .ok false

theorem shouldNotify_of_ne {reg : Str × ListenerInfo Callback} (hNe : reg.1 ≠ label) :
    ListenerTable.shouldNotify label reg.1 reg.2 = .ok false ↔
      (reg.2.childNotify = true → checkLabelRuleOverlap label reg.1 = .ok false) := by
  rw [ListenerTable.shouldNotify, if_neg hNe]
  by_cases hChild : reg.2.childNotify = true <;> simp [hChild]

/-- With the same table the calls are the same exactly when no rule but the label calls. -/
theorem sameCalls_self_iff : SameCalls callable t t label ↔ OnlyExact t label := by
  constructor
  · rintro ⟨fileCalls, calls, hFile, hSimple, hPerm⟩ reg hReg hWalks hNe
    rw [← shouldNotify_of_ne hNe]
    obtain ⟨called, hCalled⟩ := notifyListeners_returns_iff.mp ⟨calls, hSimple⟩ reg hReg hWalks
    cases called with
    | false => exact hCalled
    | true =>
        have hMem := hPerm.mem_iff.mpr ((mem_notifyListeners_iff hSimple).mpr ⟨hReg, hWalks, hCalled⟩)
        rw [notifyListeners_eq, Except.ok.injEq] at hFile
        rw [← hFile] at hMem
        split_ifs at hMem
        · cases hMem
        · obtain ⟨l, -, rfl⟩ := List.mem_map.mp hMem
          exact absurd rfl hNe
  · intro hOnly
    have hTest : ∀ reg ∈ t.registrations, t.WalksTo label reg.1 →
        ListenerTable.shouldNotify label reg.1 reg.2 = .ok (decide (reg.1 = label)) := by
      intro reg hReg hWalks
      by_cases hSame : reg.1 = label
      · rw [ListenerTable.shouldNotify, if_pos hSame, hSame]
        simp
      · rw [(shouldNotify_of_ne hSame).mpr (hOnly reg hReg hWalks hSame)]
        simp [hSame]
    obtain ⟨calls, hCalls⟩ := notifyListeners_returns_iff.mpr fun reg hReg hWalks => ⟨_, hTest reg hReg hWalks⟩
    refine ⟨_, calls, notifyListeners_eq t label, hCalls, ?_⟩
    have hNames := t.nodup_under label
    refine (List.perm_ext_iff_of_nodup ?_ (nodup_calls hCalls).of_map).mpr fun reg => ?_
    · split_ifs
      · exact List.nodup_nil
      · exact hNames.of_map.map fun _ _ hSame => (Prod.mk.inj hSame).2
    · rw [mem_notifyListeners_iff hCalls]
      constructor
      · intro hMem
        split_ifs at hMem with hQuery
        · cases hMem
        · obtain ⟨l, hl, rfl⟩ := List.mem_map.mp hMem
          have hReg : (label, l) ∈ t.registrations := t.mem_registrations_iff.mpr hl
          have hRule : label ∈ t.rules := t.mem_rules_iff.mpr (List.ne_nil_of_mem hl)
          have hWalks := (walksTo_self hRule).mpr hQuery
          exact ⟨hReg, hWalks, by rw [hTest _ hReg hWalks]; simp⟩
      · rintro ⟨hReg, hWalks, hPasses⟩
        obtain ⟨rule, l⟩ := reg
        rw [hTest _ hReg hWalks, Except.ok.injEq, decide_eq_true_eq] at hPasses
        dsimp only at hPasses
        subst hPasses
        have hl := t.mem_registrations_iff.mp hReg
        rw [if_neg ((walksTo_self (t.mem_rules_iff.mpr (List.ne_nil_of_mem hl))).mp hWalks)]
        exact List.mem_map.mpr ⟨l, hl, rfl⟩

section Registrations

/-! A `FileBackend` keeps its listeners as a `SimpleBackend` does, whatever happens to its watches. -/

variable {b : FileBackend} {s s' : WatchTables Callback}

theorem foldl_nodeListeners {Item : Type} {change : WatchTables Callback → Item → WatchTables Callback}
    (h : ∀ s item, (change s item).nodeListeners = s.nodeListeners) (items : List Item) (s : WatchTables Callback) :
    (items.foldl change s).nodeListeners = s.nodeListeners := by
  induction items generalizing s with
  | nil => rfl
  | cons item items ih => rw [List.foldl_cons, ih, h]

theorem leave_nodeListeners (s : WatchTables Callback) (full : FullWatchSpecifier) (wd : ℕ)
    (entries : Finset FullWatchSpecifier) : (s.leave full wd entries).nodeListeners = s.nodeListeners := by
  unfold WatchTables.leave
  split_ifs <;> rfl

theorem freeWatch_nodeListeners (s : WatchTables Callback) (specifier : WatchChainSpecifier) :
    (s.freeWatch specifier).nodeListeners = s.nodeListeners := by
  have hOne (s : WatchTables Callback) (full : FullWatchSpecifier) : (s.freeOne full).nodeListeners = s.nodeListeners := by
    unfold WatchTables.freeOne
    split
    · rfl
    · exact leave_nodeListeners ..
  unfold WatchTables.freeWatch
  split
  · rfl
  · exact foldl_nodeListeners hOne _ s

theorem teardownWatch_nodeListeners (s : WatchTables Callback) (specifier : WatchChainSpecifier) :
    (s.teardownWatch specifier).nodeListeners = s.nodeListeners := by
  have hOne (s : WatchTables Callback) (full : FullWatchSpecifier) : (s.tearOne full).nodeListeners = s.nodeListeners := by
    unfold WatchTables.tearOne
    split <;> rfl
  unfold WatchTables.teardownWatch
  split
  · rfl
  · exact foldl_nodeListeners hOne _ s

theorem dropOne_nodeListeners (s : WatchTables Callback) (full : FullWatchSpecifier) :
    (s.dropOne full).nodeListeners = s.nodeListeners := by
  unfold WatchTables.dropOne
  split
  · rfl
  · split
    · rfl
    · exact leave_nodeListeners ..

theorem watchInvariant_nodeListeners (cwd : Path) (t : ListenerTable Callback) :
    WatchInvariant cwd fun s => s.nodeListeners = t where
  setChains _ _ h := h
  enter _ _ h := h
  freeWatch s specifier h := (freeWatch_nodeListeners s specifier).trans h
  dropOne s full h := (dropOne_nodeListeners s full).trans h

theorem nodeListeners_deregister (listenerName notificationRule : Str) (s : WatchTables Callback) :
    (deregisterNodeListener listenerName notificationRule s).nodeListeners =
      s.nodeListeners.deregisterNodeListener listenerName notificationRule :=
  congrArg (·.deregisterNodeListener listenerName notificationRule)
    (foldl_nodeListeners (fun s _ => teardownWatch_nodeListeners s _) _ s)

/-- A listener is registered once its watches are collected. -/
theorem run_register_returns {b : FileBackend} {fs : FileSystem} {depth : ℕ} {listenerName notificationRule : Str}
    {childNotify : Bool} {chains : List WatchChain} (callback : Callback) (s : WatchTables Callback)
    (h : b.collectWatchPaths fs depth notificationRule childNotify = .ok chains) :
    ∃ s', (WatchAction.register fs depth listenerName notificationRule childNotify callback).run b callable s = (.ok (), s') :=
  ⟨_, (bind_change _ _ _).trans ((bind_ok (setupWatch_of_collect
    ⟨notificationRule, listenerName, childNotify⟩ h
      (FileBackend.deregisterNodeListener listenerName notificationRule s))).trans rfl)⟩

/-- The table of a `SimpleBackend` after the same call. -/
def WatchAction.perform (t : ListenerTable Callback) : WatchAction Callback → ListenerTable Callback
  | register _ _ listenerName notificationRule childNotify callback =>
      t.registerNodeListener listenerName notificationRule childNotify callback
  | deregister listenerName notificationRule => t.deregisterNodeListener listenerName notificationRule
  | _ => t

theorem nodeListeners_run {action : WatchAction Callback} (h : action.run b callable s = (.ok (), s')) :
    s'.nodeListeners = action.perform s.nodeListeners := by
  have hEvents {x : Effectful (WatchTables Callback) Unit} (hKeeps : Keeps (fun u => u.nodeListeners = s.nodeListeners) x)
      (hCall : x s = (.ok (), s')) : s'.nodeListeners = s.nodeListeners := by
    have hState := hKeeps s rfl
    rwa [hCall] at hState
  have hInvariant := watchInvariant_nodeListeners b.cwd s.nodeListeners
  cases action with
  | register fs depth listenerName notificationRule childNotify callback =>
      set cleared := FileBackend.deregisterNodeListener listenerName notificationRule s with hCleared
      have hSetup := keeps_setupWatch (watchInvariant_nodeListeners b.cwd cleared.nodeListeners) fs depth
        ⟨notificationRule, listenerName, childNotify⟩ cleared rfl
      rcases hCall : b.setupWatch fs depth ⟨notificationRule, listenerName, childNotify⟩ cleared with ⟨e | _, u⟩
      · exact absurd (congrArg Prod.fst (((bind_change _ _ _).trans (bind_error hCall)).symm.trans h)) nofun
      · rw [hCall] at hSetup
        have hAfter : u.nodeListeners.registerNodeListener listenerName notificationRule childNotify callback =
            s'.nodeListeners :=
          congrArg (fun result => result.2.nodeListeners) (((bind_change _ _ _).trans (bind_ok hCall)).symm.trans h)
        rw [← hAfter, hSetup, hCleared, nodeListeners_deregister, register_deregister]
        rfl
  | deregister listenerName notificationRule =>
      have hAfter : (FileBackend.deregisterNodeListener listenerName notificationRule s).nodeListeners = s'.nodeListeners :=
        congrArg (fun result => result.2.nodeListeners) h
      rw [← hAfter]
      exact nodeListeners_deregister listenerName notificationRule s
  | created fs depth wd name order =>
      exact hEvents (keeps_forEach fun full _ => keeps_onCreated hInvariant fs callable depth name full) h
  | deleted fs wd name order =>
      exact hEvents (keeps_forEach fun full _ => keeps_onDeleted hInvariant fs callable name full) h

theorem nodeListeners_forEach {actions : List (WatchAction Callback)}
    (h : forEach (WatchAction.run b callable) actions s = (.ok (), s')) :
    s'.nodeListeners = actions.foldl WatchAction.perform s.nodeListeners := by
  induction actions generalizing s with
  | nil =>
      have hAfter := congrArg Prod.snd h
      exact congrArg WatchTables.nodeListeners hAfter.symm
  | cons action actions ih =>
      rw [forEach] at h
      rcases hCall : action.run b callable s with ⟨e | _, u⟩
      · rw [bind_error hCall] at h
        cases h
      · rw [bind_ok hCall] at h
        rw [List.foldl_cons, ← nodeListeners_run hCall]
        exact ih h

end Registrations

/-- After the same calls, which returned, both backends call the same listeners for a label
exactly when a `SimpleBackend` calls none under another rule than the label. -/
theorem sameCalls_iff {b : FileBackend} {actions : List (WatchAction Callback)} {s : WatchTables Callback}
    (hRun : forEach (WatchAction.run b callable) actions .empty = (.ok (), s)) (label : Str) :
    SameCalls callable s.nodeListeners (actions.foldl WatchAction.perform .empty) label ↔
      OnlyExact (actions.foldl WatchAction.perform .empty) label := by
  rw [nodeListeners_forEach hRun]
  exact sameCalls_self_iff

theorem forEach_registerAtRoot : forEach (WatchAction.run atRoot fun _ : Unit => true) [registerAtRoot (str "A")] .empty =
    (.ok (), watchingRoot (str "A") (FileBackend.deregisterNodeListener (str "L") (str "A") .empty)) := by
  rw [forEach_singleton]
  exact run_registerAtRoot (.inl rfl) _

theorem sameCalls_iff_one :
    SameCalls (fun _ : Unit => true)
        (watchingRoot (str "A") (FileBackend.deregisterNodeListener (str "L") (str "A") .empty)).nodeListeners
        ([registerAtRoot (str "A")].foldl WatchAction.perform .empty) (str "A") ↔
      OnlyExact ([registerAtRoot (str "A")].foldl WatchAction.perform .empty) (str "A") :=
  sameCalls_iff forEach_registerAtRoot (str "A")

/-- A backend on the root directory, written with a second slash. -/
def atRootTwice : FileBackend where
  basePath := str "//"
  cwd := []
  order := ⟨FileSystem.names, FileSystem.perm_names⟩
  floats := ⟨fun _ => [], fun _ => 0, fun _ => [], fun _ => 0⟩
  endsWithSlash := by decide
  noNul := by decide
  cwdValid := validName_nil

theorem collectWatchPaths_root : ∃ chains, atRootTwice.collectWatchPaths .onlyRoot 1 [] true = .ok chains := by
  have hDirectories : atRootTwice.directoryWatchChain (str "//") [] = .ok [(.entries, str "//")] := by
    rw [directoryWatchChain]
    rfl
  have hReaddir : FileSystem.onlyRoot.readdir atRootTwice.order atRootTwice.cwd (str "//") = .ok [] := rfl
  have hParent : getNodeParentPath atRootTwice.basePath [] = .ok (str "//") := rfl
  have hDirectory : getNodeDirectoryPath atRootTwice.basePath [] = str "//" := rfl
  have hName : getNodeName atRootTwice.basePath [] = .ok [] := rfl
  have hContents : atRootTwice.readContentFileNames [] .onlyRoot = .ok [] := by
    rw [readContentFileNames, hParent, hName]
    simp [hReaddir]
  rw [collectWatchPaths, nodeWatchChain, hParent]
  simp [hDirectories, hContents, hDirectory, hReaddir]

/-- A listener of the root that asks for children is told of every label by a `SimpleBackend`, and of
none but the root by a `FileBackend`. -/
theorem not_sameCalls_root : ∃ (actions : List (WatchAction Unit)) (s : WatchTables Unit),
    forEach (WatchAction.run atRootTwice fun _ => true) actions .empty = (.ok (), s) ∧
      ¬SameCalls (fun _ => true) s.nodeListeners (actions.foldl WatchAction.perform .empty) (str "A") := by
  obtain ⟨chains, hChains⟩ := collectWatchPaths_root
  have hReturns : ∃ s, (WatchAction.register .onlyRoot 1 (str "L") [] true ()).run atRootTwice (fun _ : Unit => true) .empty =
      (.ok (), s) := run_register_returns () .empty hChains
  obtain ⟨s, hRegister⟩ := hReturns
  have hRun : forEach (WatchAction.run atRootTwice fun _ : Unit => true) [.register .onlyRoot 1 (str "L") [] true ()] .empty =
      (.ok (), s) := by
    rw [forEach_singleton]
    exact hRegister
  refine ⟨[.register .onlyRoot 1 (str "L") [] true ()], s, hRun, ?_⟩
  rw [nodeListeners_forEach hRun]
  rintro ⟨fileCalls, calls, hFile, hSimple, hPerm⟩
  have hNone : FileBackend.notifyListeners (fun _ => true)
      ((empty : ListenerTable Unit).registerNodeListener (str "L") [] true ()) (str "A") = .ok [] := rfl
  have hOne : ((empty : ListenerTable Unit).registerNodeListener (str "L") [] true ()).notifyListeners (str "A") =
      .ok [([], ⟨str "L", true, ()⟩)] := rfl
  obtain rfl := Except.ok.inj (hNone.symm.trans hFile)
  obtain rfl := Except.ok.inj (hOne.symm.trans hSimple)
  exact absurd hPerm.length_eq (by simp)

end FileBackend
end Wwatp
