import Wwatp.Cxx.SortedInsertion
import Wwatp.Memory.QueryOverlay
import Wwatp.Server.JournalOnce

/-! The mutable page of a route: a node whose children are the labels that the route was asked to listen to. It
is looked up and written on the backend for each label that is new or upgraded. -/
namespace Wwatp

open Cxx Cxx.Effectful

namespace TransactionalBackend

variable {Callback : Type} (b : TransactionalBackend Callback)

/-- The loop of `getPageTree` over the children of the page. -/
def getNodes : List Str → Outcome (List TreeNode)
  | [] => .ok []
  | labelRule :: rest => do
      let node ← b.getNode labelRule
      return node.toList ++ (← getNodes rest)

def getPageTree (pageNodeLabelRule : Str) : Outcome (List TreeNode) :=
  if b.transactionStack = [] then .ok (b.tree.getPageTree pageNodeLabelRule)
  else do
    match ← b.getNode pageNodeLabelRule with
    | none => throw (.runtimeError (str "Page node not found: " ++ pageNodeLabelRule))
    | some page => b.getNodes page.childNames

def getFullTree : Outcome (List TreeNode) :=
  if b.transactionStack = [] then .ok b.tree.getFullTree
  else throw (.runtimeError (str "getFullTree() is not supported in transaction mode"))

def applyTransaction (transaction : Transaction) :
    Outcome (TransactionalBackend Callback × List (Notice Callback)) := do
  let (tree, notices) ← b.tree.applyTransaction transaction
  return ({ b with tree := tree }, notices)

end TransactionalBackend

namespace ServerRoute

variable {σ : Type} {B : Backend σ}

/-- The children of the page that was found; there are none as long as there is no page. -/
def pageChildren (found : Option TreeNode) : List Str := (found.map TreeNode.childNames).getD []

/-- The page that is written in place of the one that was found. -/
def pageNode (page : Str) (found : Option TreeNode) (children : List Str) : TreeNode :=
  { found.getD { labelRule := page } with childNames := children }

/-- The route after a `REGISTER_LISTENER` request, and after several, however each of them ends. -/
def afterRequest (B : Backend σ) (route : ServerRoute σ) (request : Str × Bool) : ServerRoute σ :=
  (registerListener B request.1 request.2 route).2

def afterRequests (B : Backend σ) (requests : List (Str × Bool)) (route : ServerRoute σ) : ServerRoute σ :=
  requests.foldl (afterRequest B) route

/-- The backend stores a page in the place of the one that was found. -/
def Stores (B : Backend σ) (page : Str) (found : Option TreeNode) (children : List Str) (backend : σ) : Prop :=
  ∃ returned stored, (B.upsertNode [pageNode page found children] backend).outcome = .ok returned ∧
    B.getNode page (B.upsertNode [pageNode page found children] backend).after = .ok (some stored) ∧
      stored.childNames = children

/-- The backend answers what it is asked for a request: its registration leaves the page alone, and it stores a page
that it is given. -/
def Serves (B : Backend σ) (route : ServerRoute σ) (request : Str × Bool) : Prop :=
  let page := route.mutablePageLabelRule
  let registered := B.registerNodeListener route.url request.1 request.2 route.backend
  registered.outcome = .ok () ∧ ∃ found, B.getNode page route.backend = .ok found ∧
    B.getNode page registered.after = .ok found ∧ ∀ children, Stores B page found children registered.after

/-- The backend does so at each request that registers something. -/
def ServesAll (B : Backend σ) : List (Str × Bool) → ServerRoute σ → Prop
  | [], _ => True
  | request :: rest, route =>
    (route.addsListener request.1 request.2 = true → Serves B route request) ∧ ServesAll B rest (afterRequest B route request)

section Insertion

variable {children : List Str}

theorem lowerBound_children (hSorted : StrictlySorted compare children) (labelRule : Str) :
    lowerBound (fun child => decide (compare child labelRule = .lt)) children =
      .ok (children.dropWhile (isBefore compare labelRule)) :=
  lowerBound_of_sorted hSorted labelRule

/-- On a sorted page the search finds the label, or the place to insert it. -/
theorem insertChild_sorted (hSorted : StrictlySorted compare children) (labelRule : Str) :
    (insertChild labelRule children = .ok none ∧ labelRule ∈ children) ∨
      ∃ more, insertChild labelRule children = .ok (some more) ∧ StrictlySorted compare more ∧
        labelRule ∈ more ∧ children ⊆ more := by
  have hSplit := List.takeWhile_append_dropWhile (p := isBefore compare labelRule) (l := children)
  rw [insertChild, lowerBound_children hSorted, Outcome.ok_bind]
  by_cases hFound : (children.dropWhile (isBefore compare labelRule)).head? = some labelRule
  · refine .inl ⟨by rw [if_pos hFound]; rfl, ?_⟩
    exact List.dropWhile_subset _ (List.mem_of_mem_head? hFound)
  · have hTake : children.take (children.length - (children.dropWhile (isBefore compare labelRule)).length) =
        children.takeWhile (isBefore compare labelRule) := by
      have hLength := congrArg List.length hSplit
      rw [List.length_append] at hLength
      rw [List.prefix_iff_eq_take.mp (List.takeWhile_prefix (isBefore compare labelRule))]
      congr 1
      omega
    refine .inr ⟨_, by rw [if_neg hFound]; rfl, ?_, ?_, ?_⟩
    · rw [hTake]
      exact strictlySorted_insert hSorted hFound
    · simp
    · rw [hTake]
      intro child hChild
      rw [← hSplit, List.mem_append] at hChild
      rcases hChild with hFront | hBack
      · exact List.mem_append_left _ hFront
      · exact List.mem_append_right _ (List.mem_cons_of_mem _ hBack)

end Insertion

section Upkeep

variable {route : ServerRoute σ} {page : Str} {found : Option TreeNode}

/-- What a route with this page comes to: the page is sorted and lists the label and what it listed before. -/
def Lists (B : Backend σ) (page labelRule : Str) (before : Option TreeNode) (route after : ServerRoute σ) : Prop :=
  after.mutablePageLabelRule = page ∧ after.listeningLabels = route.listeningLabels ∧
    ∃ now, B.getNode page after.backend = .ok now ∧ StrictlySorted compare (pageChildren now) ∧
      labelRule ∈ pageChildren now ∧ pageChildren before ⊆ pageChildren now

/-- Writing a sorted page with the label and all that was listed. -/
theorem call_upsertNode_lists (route : ServerRoute σ) {labelRule : Str} {children : List Str} {nodes : List TreeNode}
    (hPage : route.mutablePageLabelRule = page) (hNodes : nodes = [pageNode page found children])
    (hStores : Stores B page found children route.backend) (hSorted : StrictlySorted compare children)
    (hLabel : labelRule ∈ children) (hKept : pageChildren found ⊆ children) :
    ∃ after, (call (.upsertNode nodes) (B.upsertNode nodes) >>= fun _ => pure ()) route = (.ok (), after) ∧
      Lists B page labelRule found route after := by
  subst hNodes
  obtain ⟨returned, stored, hReturned, hStored, rfl⟩ := hStores
  refine ⟨_, bind_ok (congrArg (·, _) hReturned), hPage, rfl, some stored, hStored, hSorted, hLabel, hKept⟩

/-- The upkeep of a sorted page leaves it sorted, with the label and all it had before. -/
theorem maintainMutablePage_lists (hPage : route.mutablePageLabelRule = page)
    (hFound : B.getNode page route.backend = .ok found) (hSorted : StrictlySorted compare (pageChildren found))
    (hStores : ∀ children, Stores B page found children route.backend) (labelRule : Str) :
    ∃ after, maintainMutablePage B labelRule route = (.ok (), after) ∧ Lists B page labelRule found route after := by
  let asked : ServerRoute σ := { route with backendCalls := route.backendCalls ++ [.getNode page] }
  have hStart : inspect (fun r : ServerRoute σ => .ok r.mutablePageLabelRule) route = (.ok page, route) := by
    rw [inspect, hPage]
  have hAsk : ask (.getNode page) (B.getNode page) route = (.ok found, asked) := by
    rw [ask, call, hFound]
    rfl
  cases found with
  | none =>
      obtain ⟨after, hAfter, hLists⟩ := call_upsertNode_lists asked hPage rfl (hStores [labelRule])
        (strictlySorted_singleton labelRule) List.mem_cons_self (List.nil_subset _)
      exact ⟨after, (bind_ok hStart).trans ((bind_ok hAsk).trans hAfter), hLists⟩
  | some mutablePage =>
      have hChildren : StrictlySorted compare mutablePage.childNames := hSorted
      have hInspect {inserted : Option (List Str)} (hInsert : insertChild labelRule mutablePage.childNames = .ok inserted) :
          inspect (fun _ : ServerRoute σ => insertChild labelRule mutablePage.childNames) asked = (.ok inserted, asked) := by
        rw [inspect, hInsert]
      rcases insertChild_sorted hChildren labelRule with ⟨hInsert, hListed⟩ | ⟨more, hInsert, hMore, hNew, hKept⟩
      · refine ⟨asked, ?_, hPage, rfl, some mutablePage, hFound, hSorted, hListed, List.Subset.refl _⟩
        exact (bind_ok hStart).trans ((bind_ok hAsk).trans (bind_ok (hInspect hInsert)))
      · obtain ⟨after, hAfter, hLists⟩ := call_upsertNode_lists asked hPage rfl (hStores more) hMore hNew hKept
        exact ⟨after, (bind_ok hStart).trans ((bind_ok hAsk).trans ((bind_ok (hInspect hInsert)).trans hAfter)), hLists⟩

end Upkeep

section Requests

variable {route : ServerRoute σ} {page : Str} {initial : Option TreeNode} {requests : List (Str × Bool)}

/-- The page is sorted, and lists what it listed at first and every label that was asked for. -/
structure PageLists (B : Backend σ) (page : Str) (initial : Option TreeNode) (requests : List (Str × Bool))
    (route : ServerRoute σ) : Prop where
  ownPage : route.mutablePageLabelRule = page
  known : ∀ label : Str, (route.listeningLabels[label]?).isSome → label ∈ requests.map Prod.fst
  listed : ∃ now, B.getNode page route.backend = .ok now ∧ StrictlySorted compare (pageChildren now) ∧
    pageChildren initial ⊆ pageChildren now ∧ requests.map Prod.fst ⊆ pageChildren now

/-- One request: what is known is listed already, and what is new gets listed. -/
theorem PageLists.afterRequest (h : PageLists B page initial requests route) (request : Str × Bool)
    (hServes : route.addsListener request.1 request.2 = true → Serves B route request) :
    PageLists B page initial (requests ++ [request]) (ServerRoute.afterRequest B route request) := by
  obtain ⟨now, hNow, hSorted, hInitial, hRequested⟩ := h.listed
  have hAsked : inspect (fun r : ServerRoute σ => .ok (r.addsListener request.1 request.2)) route =
      (.ok (route.addsListener request.1 request.2), route) := rfl
  have hLabels : (requests ++ [request]).map Prod.fst = requests.map Prod.fst ++ [request.1] := by simp
  cases hAdds : route.addsListener request.1 request.2 with
  | false =>
      have hAfter : ServerRoute.afterRequest B route request = route := by
        rw [hAdds] at hAsked
        exact congrArg Prod.snd (bind_ok hAsked)
      have hKnown : (route.listeningLabels[request.1]?).isSome := by
        rw [addsListener] at hAdds
        cases hListening : route.listeningLabels[request.1]? with
        | none => simp [hListening] at hAdds
        | some known => rfl
      rw [hAfter]
      refine ⟨h.ownPage, fun label hLabel => ?_, now, hNow, hSorted, hInitial, ?_⟩
      · rw [hLabels]
        exact List.mem_append_left _ (h.known label hLabel)
      · rw [hLabels]
        exact List.append_subset.mpr ⟨hRequested, List.cons_subset.mpr ⟨hRequested (h.known _ hKnown), List.nil_subset _⟩⟩
  | true =>
      rw [hAdds] at hAsked
      obtain ⟨hRegistered, found, hFound, hKept, hStores⟩ := hServes hAdds
      rw [h.ownPage] at hFound hKept hStores
      obtain rfl := Except.ok.inj (hNow.symm.trans hFound)
      let listening : ServerRoute σ := { route with listeningLabels := route.listeningLabels.insert request.1 request.2 }
      let registered : ServerRoute σ := (call (.registerNodeListener route.url request.1 request.2)
        (B.registerNodeListener route.url request.1 request.2) listening).2
      obtain ⟨after, hUpkeep, hOwn, hListening, next, hNext, hNextSorted, hListed, hBefore⟩ :=
        @maintainMutablePage_lists _ B registered page now h.ownPage hKept hSorted hStores request.1
      have hCall : call (.registerNodeListener route.url request.1 request.2)
          (B.registerNodeListener route.url request.1 request.2) listening = (.ok (), registered) :=
        congrArg (·, registered) hRegistered
      have hUrl : inspect (fun r : ServerRoute σ => .ok r.url) listening = (.ok route.url, listening) := rfl
      have hRegister : registerListener B request.1 request.2 route = (.ok (), after) :=
        (bind_ok hAsked).trans ((bind_change _ _ route).trans ((bind_ok hUrl).trans ((bind_ok hCall).trans hUpkeep)))
      have hAfter : ServerRoute.afterRequest B route request = after := congrArg Prod.snd hRegister
      rw [hAfter]
      refine ⟨hOwn, fun label hLabel => ?_, next, hNext, hNextSorted, List.Subset.trans hInitial hBefore, ?_⟩
      · have hInserted : ((route.listeningLabels.insert request.1 request.2)[label]?).isSome := by
          rwa [hListening] at hLabel
        rw [hLabels, List.mem_append, List.mem_singleton]
        rw [Std.ExtTreeMap.getElem?_insert] at hInserted
        split_ifs at hInserted with hSame
        · exact .inr (Std.LawfulEqCmp.eq_of_compare hSame).symm
        · exact .inl (h.known label hInserted)
      · rw [hLabels]
        exact List.append_subset.mpr ⟨List.Subset.trans hRequested hBefore, List.cons_subset.mpr ⟨hListed, List.nil_subset _⟩⟩

/-- Every request keeps the page as it should be. -/
theorem PageLists.afterRequests (h : PageLists B page initial requests route) (more : List (Str × Bool))
    (hServes : ServesAll B more route) : PageLists B page initial (requests ++ more) (ServerRoute.afterRequests B more route) := by
  induction more generalizing requests route with
  | nil => rwa [List.append_nil]
  | cons request more ih =>
      rw [List.append_cons]
      exact ih (h.afterRequest request hServes.1) hServes.2

end Requests

/-- However many labels a route is asked to listen to, in whatever order: where the backend serves every request that
registers something, the page stays sorted, lists what it listed at first, and lists every label. -/
theorem mutablePage_lists (B : Backend σ) (backend : σ) (maxJournalSize : ℕ) (url page : Str) {initial : Option TreeNode}
    (hInitial : B.getNode page backend = .ok initial) (hSorted : StrictlySorted compare (pageChildren initial))
    (requests : List (Str × Bool)) (hServes : ServesAll B requests (create backend maxJournalSize url page)) :
    ∃ now, B.getNode page (afterRequests B requests (create backend maxJournalSize url page)).backend = .ok now ∧
      StrictlySorted compare (pageChildren now) ∧ pageChildren initial ⊆ pageChildren now ∧
        requests.map Prod.fst ⊆ pageChildren now := by
  have hStart : PageLists B page initial [] (create backend maxJournalSize url page) := {
    ownPage := rfl
    known := fun label h => by simp [create] at h
    listed := ⟨initial, hInitial, hSorted, List.Subset.refl _, List.nil_subset _⟩ }
  exact (hStart.afterRequests requests hServes).listed

section Shared

variable {route : ServerRoute (SimpleBackend RouteListener)} {page : Str}

/-- A `SimpleBackend` serves a request where its page is stored under its own label and the walk through the listeners
for that label comes to its end. -/
theorem serves_shared (hPage : route.mutablePageLabelRule = page) (request : Str × Bool)
    (hFiled : ∀ stored, route.backend.getNode page = some stored → stored.labelRule = page)
    (hWalk : ∃ called, (route.backend.nodeListeners.registerNodeListener route.url request.1 request.2
      RouteListener.journal).notifyListeners page = .ok called) : Serves sharedBackend route request := by
  obtain ⟨called, hCalled⟩ := hWalk
  let registered : SimpleBackend RouteListener := { route.backend with
    nodeListeners := route.backend.nodeListeners.registerNodeListener route.url request.1 request.2 .journal }
  refine ⟨rfl, route.backend.getNode page, by rw [hPage]; rfl, by rw [hPage]; rfl, fun children => ?_⟩
  rw [hPage]
  let written := pageNode page (route.backend.getNode page) children
  have hLabel : written.labelRule = page := by
    cases hFound : route.backend.getNode page with
    | none => simp [written, pageNode, hFound]
    | some stored => simp [written, pageNode, hFound, hFiled stored hFound]
  let after : SimpleBackend RouteListener := { registered with memoryTree := registered.memoryTree.upsertNode [written] }
  have hNotices : ∃ notices, after.notifyAll [(written.labelRule, some written)] = .ok notices := by
    have hCalls : after.nodeListeners.notifyListeners page = .ok called := hCalled
    simp [SimpleBackend.notifyAll, SimpleBackend.notifyListeners, hLabel, hCalls]
  obtain ⟨notices, hNotices⟩ := hNotices
  have hUpsert : sharedBackend.upsertNode [written] registered = ⟨.ok true, after, journalEntries notices⟩ := by
    have hPerform : registered.perform (.upsertNode [written]) = .ok (after, notices) :=
      (SimpleBackend.perform_eq_ok _).mpr ⟨_, rfl, rfl, hNotices⟩
    change changeShared (.upsertNode [written]) registered = _
    rw [changeShared, hPerform]
  refine ⟨true, written.assign, congrArg BackendReply.outcome hUpsert, ?_, rfl⟩
  have hStored : after.getNode page = some written.assign := by
    change (registered.memoryTree.set written.labelRule written).getNode page = _
    rw [hLabel, MemoryTree.getNode_set, if_pos rfl]
  have hAfter := congrArg BackendReply.after hUpsert
  exact congrArg Except.ok ((congrArg (SimpleBackend.getNode · page) hAfter).trans hStored)

/-- A request for `A` on a new backend. -/
theorem mutablePage_lists_first :
    ∃ now, sharedBackend.getNode (str "P") (afterRequests sharedBackend [(str "A", true)]
        (create ⟨.empty, .empty⟩ 10 (str "wwatp") (str "P"))).backend = .ok now ∧
      StrictlySorted compare (pageChildren now) ∧ str "A" ∈ pageChildren now := by
  have hServes : Serves sharedBackend (create ⟨.empty, .empty⟩ 10 (str "wwatp") (str "P")) (str "A", true) := by
    refine serves_shared rfl _ (fun stored hStored => ?_) ⟨[], ?_⟩
    · cases (MemoryTree.getNode_empty (str "P")).symm.trans hStored
    · rfl
  have hInitial : sharedBackend.getNode (str "P") ⟨.empty, .empty⟩ = .ok none := by
    exact congrArg Except.ok (MemoryTree.getNode_empty (str "P"))
  obtain ⟨now, hNow, hSorted, -, hListed⟩ := mutablePage_lists sharedBackend ⟨.empty, .empty⟩ 10 (str "wwatp") (str "P")
    hInitial List.Pairwise.nil [(str "A", true)] ⟨fun _ => hServes, trivial⟩
  exact ⟨now, hNow, hSorted, hListed List.mem_cons_self⟩

end Shared

section Layered

/-- A change of a backend with layers. -/
def changeLayered (operation : TransactionalBackend RouteListener →
    Outcome (TransactionalBackend RouteListener × List (Notice RouteListener))) (b : TransactionalBackend RouteListener) :
    BackendReply (TransactionalBackend RouteListener) Bool :=
  match operation b with
  | .ok (after, notices) => ⟨.ok true, after, journalEntries notices⟩
  | .error fault => ⟨.error fault, b, []⟩

/-- The functions of a `TransactionalBackend`. -/
def layeredBackend : Backend (TransactionalBackend RouteListener) where
  getNode labelRule b := b.getNode labelRule
  upsertNode nodes := changeLayered (·.upsertNode nodes)
  deleteNode labelRule := changeLayered (·.deleteNode labelRule)
  getPageTree page b := b.getPageTree page
  queryNodes labelRule b := b.queryNodes labelRule
  openTransactionLayer node := changeLayered fun b => do return (← b.openTransactionLayer node, [])
  closeTransactionLayers := changeLayered (·.closeTransactionLayers)
  applyTransaction transaction := changeLayered (·.applyTransaction transaction)
  getFullTree b := b.getFullTree
  registerNodeListener name labelRule childNotify b :=
    let registered := sharedBackend.registerNodeListener name labelRule childNotify b.tree
    ⟨registered.outcome, { b with tree := registered.after }, registered.journaled⟩
  notifyListeners labelRule node b :=
    let notified := sharedBackend.notifyListeners labelRule node b.tree
    ⟨notified.outcome, { b with tree := notified.after }, notified.journaled⟩
  processNotifications b := ⟨.ok (), b, []⟩

/-- While a layer is open, the page is not among the nodes it tracks: the route takes the label for listened to, the
request ends well, and there is still no page. -/
theorem not_mutablePage_lists :
    ∃ backend after, layeredBackend.getNode (str "P/M") backend = .ok none ∧
      (layeredBackend.openTransactionLayer { labelRule := str "A/B" } ⟨⟨.empty, .empty⟩, []⟩).after = backend ∧
      registerListener layeredBackend (str "A/C") true (create backend 10 (str "wwatp") (str "P/M")) = (.ok (), after) ∧
      after.addsListener (str "A/C") true = false ∧
      ∀ now, layeredBackend.getNode (str "P/M") after.backend = .ok now → str "A/C" ∉ pageChildren now := by
  refine ⟨_, _, ?_, rfl, rfl, ?_, fun now hNow => ?_⟩
  · rfl
  · rfl
  · have hNone : Except.ok now = (.ok none : Outcome (Option TreeNode)) := hNow.symm.trans (by rfl)
    obtain rfl := Except.ok.inj hNone
    exact List.not_mem_nil

end Layered

end ServerRoute

end Wwatp
