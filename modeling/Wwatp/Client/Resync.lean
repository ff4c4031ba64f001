import Wwatp.Journal.Safety
import Wwatp.Message.MaybeTreeNodeCodec
import Wwatp.Server.Route
import Wwatp.Structure.Composite
import Wwatp.Structure.SubtreeView

/-! Recovery of a client. After a gap in its journal it asks for one page tree, and a
full-tree sync deletes the root first; both then write the nodes of the answer. What the
local backend keeps beside them decides whether it agrees with the server. -/
namespace Wwatp

open Cxx
open CompositeBackend (lastWritten lastWritten_cons)

namespace MemoryTree

/-- After a sequence of writes a label holds the last node written to it. -/
theorem getNode_upsertNode (t : MemoryTree) (nodes : List TreeNode) (labelRule : Str) :
    (t.upsertNode nodes).getNode labelRule =
      ((lastWritten nodes labelRule).map TreeNode.assign).or (t.getNode labelRule) := by
  induction nodes generalizing t with
  | nil => rfl
  | cons node rest ih =>
    have hFirst : t.upsertNode (node :: rest) = (t.set node.labelRule node).upsertNode rest := rfl
    rw [hFirst, ih, lastWritten_cons, getNode_set]
    cases lastWritten rest labelRule with
    | some last => rfl
    | none => split <;> rfl

end MemoryTree

/-- No call of `notifyListeners` for these labels runs past the end of a label. -/
def ListenerTable.Announces {Callback : Type} (t : ListenerTable Callback) (labels : List Str) : Prop :=
  ∀ labelRule ∈ labels, ∃ called, t.notifyListeners labelRule = .ok called

namespace SimpleBackend

variable {Callback : Type} {b after : SimpleBackend Callback}

theorem notifyAll_returns_iff (changes : List (Str × Option TreeNode)) :
    (∃ notices, b.notifyAll changes = .ok notices) ↔
      b.nodeListeners.Announces (changes.map Prod.fst) := by
  induction changes with
  | nil => exact ⟨fun _ _ hMem => absurd hMem List.not_mem_nil, fun _ => ⟨[], rfl⟩⟩
  | cons change rest ih =>
    rw [List.map_cons, ListenerTable.Announces, List.forall_mem_cons]
    change _ ↔ _ ∧ b.nodeListeners.Announces (rest.map Prod.fst)
    rw [← ih]
    constructor
    · rintro ⟨notices, h⟩
      obtain ⟨first, hFirst, h⟩ := Outcome.bind_eq_ok.mp h
      obtain ⟨called, hCalled, -⟩ := Outcome.bind_eq_ok.mp hFirst
      obtain ⟨more, hMore, -⟩ := Outcome.bind_eq_ok.mp h
      exact ⟨⟨called, hCalled⟩, more, hMore⟩
    · rintro ⟨⟨called, hCalled⟩, more, hMore⟩
      refine ⟨called.map (fun call => ⟨call.1, call.2, change.1, change.2⟩) ++ more, ?_⟩
      rw [notifyAll, notifyListeners, hCalled, hMore]
      rfl

theorem upsertNode_ok {nodes : List TreeNode} {notices : List (Notice Callback)}
    (h : b.upsertNode nodes = .ok (after, notices)) :
    after = { b with memoryTree := b.memoryTree.upsertNode nodes } := by
  obtain ⟨told, -, hPair⟩ := Outcome.bind_eq_ok.mp h
  exact (Prod.mk.inj (Except.ok.inj hPair)).1.symm

theorem upsertNode_returns_iff (nodes : List TreeNode) :
    (∃ after notices, b.upsertNode nodes = .ok (after, notices)) ↔
      b.nodeListeners.Announces (nodes.map TreeNode.labelRule) := by
  have hLabels : nodes.map TreeNode.labelRule =
      (nodes.map fun node => (node.getLabelRule, some node)).map Prod.fst := by
    rw [List.map_map]
    rfl
  rw [hLabels, ← notifyAll_returns_iff (b := { b with memoryTree := b.memoryTree.upsertNode nodes })]
  constructor
  · rintro ⟨after, notices, h⟩
    obtain ⟨told, hTold, -⟩ := Outcome.bind_eq_ok.mp h
    exact ⟨told, hTold⟩
  · rintro ⟨told, hTold⟩
    exact ⟨_, told, by rw [upsertNode, hTold]; rfl⟩

theorem deleteNode_ok {labelRule : Str} {notices : List (Notice Callback)}
    (h : b.deleteNode labelRule = .ok (after, notices)) :
    after = { b with memoryTree := (b.memoryTree.deleteNode labelRule).1 } := by
  obtain ⟨told, -, hPair⟩ := Outcome.bind_eq_ok.mp h
  exact (Prod.mk.inj (Except.ok.inj hPair)).1.symm

end SimpleBackend

/-- `Http3ClientBackend` with its local backend. -/
structure CachingClient (Callback : Type) where
  journal : Http3ClientBackend
  localBackend : SimpleBackend Callback
  mutablePageTreeLabelRule : Str := str "MutableNodes"

namespace CachingClient

variable {Callback : Type}

def setMutablePageTreeLabelRule (c : CachingClient Callback) (labelRule : Str) : CachingClient Callback :=
  { c with mutablePageTreeLabelRule := labelRule }

/-- `upsertNode` while the sync to the server is off. -/
def upsertNode (c : CachingClient Callback) (nodes : List TreeNode) : Outcome (CachingClient Callback) := do
  let (localBackend, _) ← c.localBackend.upsertNode nodes
  return { c with localBackend }

/-- `deleteNode` while the sync to the server is off. -/
def deleteNode (c : CachingClient Callback) (labelRule : Str) : Outcome (CachingClient Callback) := do
  let (localBackend, _) ← c.localBackend.deleteNode labelRule
  return { c with localBackend }

/-- What the handling of a poll does to the local backend, and the pages whose trees it
requests. -/
def handle (c : CachingClient Callback) : List ClientEvent → Outcome (CachingClient Callback × List Str)
  | [] => .ok (c, [])
  | .applied _ (.upsertNode node) :: rest => do handle (← c.upsertNode [node]) rest
  | .applied _ (.deleteNode labelRule) :: rest => do handle (← c.deleteNode labelRule) rest
  | .pageTreeRequested labelRule :: rest => do
    let (c, requested) ← handle c rest
    return (c, labelRule :: requested)
  | .advanced _ :: rest => handle c rest

def processGetJournalResponse (c : CachingClient Callback) (notifications : List SequentialNotification) :
    Outcome (CachingClient Callback × List Str) := do
  let (journal, events) ← c.journal.processGetJournalResponse notifications
  handle { c with journal } events

/-- The case `GET_PAGE_TREE_RESPONSE`, for a request that is part of the journal's sync. -/
def processGetPageTreeResponse (c : CachingClient Callback) (nodes : List TreeNode) :
    Outcome (CachingClient Callback) := do
  let c ← c.upsertNode nodes
  return { c with journal := { c.journal with notificationBlock := false } }

theorem upsertNode_ok {c after : CachingClient Callback} {nodes : List TreeNode}
    (h : c.upsertNode nodes = .ok after) :
    after.localBackend.memoryTree = c.localBackend.memoryTree.upsertNode nodes := by
  obtain ⟨⟨backend, notices⟩, hBackend, hPair⟩ := Outcome.bind_eq_ok.mp h
  obtain rfl := Except.ok.inj hPair
  rw [SimpleBackend.upsertNode_ok hBackend]

theorem upsertNode_returns_iff (c : CachingClient Callback) (nodes : List TreeNode) :
    (∃ after, c.upsertNode nodes = .ok after) ↔
      c.localBackend.nodeListeners.Announces (nodes.map TreeNode.labelRule) := by
  rw [← SimpleBackend.upsertNode_returns_iff]
  constructor
  · rintro ⟨after, h⟩
    obtain ⟨⟨backend, notices⟩, hBackend, -⟩ := Outcome.bind_eq_ok.mp h
    exact ⟨backend, notices, hBackend⟩
  · rintro ⟨backend, notices, hBackend⟩
    exact ⟨_, by rw [upsertNode, hBackend]; rfl⟩

theorem processGetPageTreeResponse_ok {c synced : CachingClient Callback} {nodes : List TreeNode}
    (h : c.processGetPageTreeResponse nodes = .ok synced) :
    synced.localBackend.memoryTree = c.localBackend.memoryTree.upsertNode nodes := by
  obtain ⟨after, hAfter, hPair⟩ := Outcome.bind_eq_ok.mp h
  obtain rfl := Except.ok.inj hPair
  exact (upsertNode_ok hAfter :)

theorem processGetPageTreeResponse_returns_iff (c : CachingClient Callback) (nodes : List TreeNode) :
    (∃ synced, c.processGetPageTreeResponse nodes = .ok synced) ↔
      c.localBackend.nodeListeners.Announces (nodes.map TreeNode.labelRule) := by
  rw [← upsertNode_returns_iff]
  constructor
  · rintro ⟨synced, h⟩
    obtain ⟨after, hAfter, -⟩ := Outcome.bind_eq_ok.mp h
    exact ⟨after, hAfter⟩
  · rintro ⟨after, hAfter⟩
    exact ⟨_, by rw [processGetPageTreeResponse, hAfter]; rfl⟩

/-- The page an event requests. -/
def requestedPage : ClientEvent → Option Str
  | .pageTreeRequested labelRule => some labelRule
  | _ => none

theorem handle_requests {c after : CachingClient Callback} {events : List ClientEvent}
    {requested : List Str} (h : c.handle events = .ok (after, requested)) :
    requested = events.filterMap requestedPage := by
  induction events generalizing c requested with
  | nil =>
    cases h
    rfl
  | cons event rest ih =>
    cases event with
    | applied number change =>
      rw [List.filterMap_cons_none rfl]
      cases change with
      | upsertNode node | deleteNode labelRule =>
        obtain ⟨next, -, hRest⟩ := Outcome.bind_eq_ok.mp h
        exact ih hRest
    | pageTreeRequested labelRule =>
      obtain ⟨⟨next, more⟩, hRest, hPair⟩ := Outcome.bind_eq_ok.mp h
      obtain ⟨rfl, rfl⟩ := Prod.mk.inj (Except.ok.inj hPair)
      rw [ih hRest]
      rfl
    | advanced last =>
      rw [List.filterMap_cons_none rfl]
      exact ih h

theorem requestedPage_processOneNotification (n : SequentialNotification) :
    (Http3ClientBackend.processOneNotification n).filterMap requestedPage = [] := by
  rw [Http3ClientBackend.processOneNotification]
  split <;> rfl

theorem requestedPage_advanced (client : Http3ClientBackend) (n : SequentialNotification) :
    (client.updateLastNotification n).2.filterMap requestedPage = [] := by
  rw [Http3ClientBackend.updateLastNotification]
  split <;> rfl

/-- To note the last notification leaves the local backend as it is. -/
theorem handle_advanced {c after : CachingClient Callback} {client : Http3ClientBackend}
    {n : SequentialNotification} {requested : List Str}
    (h : c.handle (client.updateLastNotification n).2 = .ok (after, requested)) : after = c := by
  rw [Http3ClientBackend.updateLastNotification] at h
  split at h <;> exact (Prod.mk.inj (Except.ok.inj h)).1.symm

/-- A gap makes the client request the one page, and nothing is applied. -/
theorem processGetJournalResponse_gap {c polled : CachingClient Callback}
    {notifications : List SequentialNotification} {requested : List Str}
    (h : c.processGetJournalResponse notifications = .ok (polled, requested)) (hGap : requested ≠ []) :
    requested = [str "MutableNodes"] ∧ polled.localBackend = c.localBackend := by
  obtain ⟨⟨journal, events⟩, hJournal, hHandle⟩ := Outcome.bind_eq_ok.mp h
  have hRequests := handle_requests hHandle
  cases notifications with
  | nil => cases hJournal
  | cons front rest =>
    simp only [Http3ClientBackend.processGetJournalResponse, Http3ClientBackend.applyLoop_events] at hJournal
    obtain ⟨rfl, rfl⟩ := Prod.mk.inj (Except.ok.inj hJournal)
    simp only [List.filterMap_append, requestedPage_advanced, List.append_nil] at hRequests
    cases hFound : decide (c.journal.lastNotification.number < front.number) ||
        Http3ClientBackend.findGap front.number (front :: rest) with
    | false =>
      rw [hFound] at hRequests
      refine absurd (hRequests.trans ?_) hGap
      simp [List.filterMap_flatMap, requestedPage_processOneNotification]
    | true =>
      simp only [hFound, if_true, List.nil_append, List.cons_append,
        Http3ClientBackend.getMutablePageTreeInMode] at hHandle hRequests
      refine ⟨hRequests, ?_⟩
      obtain ⟨⟨next, more⟩, hRest, hPair⟩ := Outcome.bind_eq_ok.mp hHandle
      obtain ⟨rfl, -⟩ := Prod.mk.inj (Except.ok.inj hPair)
      rw [handle_advanced hRest]

section Resync

variable {σ : Type} (B : Backend σ) (route : ServerRoute σ)

/-- A label for which the route has a registration: its own, or above it with its children. -/
def Covered (listeningLabels : Std.ExtTreeMap Str Bool) (label : Str) : Prop :=
  ∃ (rule : Str) (childNotify : Bool), listeningLabels[rule]? = some childNotify ∧
    (label = rule ∨ (childNotify = true ∧ IsAncestor rule label))

/-- The local backend has what the server has under the label. -/
def Agrees (tree : MemoryTree) (label : Str) : Prop :=
  ∃ node, B.getNode label route.backend = .ok node ∧ SameMaybeNode (tree.getNode label) node

/-- Recovery from a gap: the configured page is requested, and after its answer the local
backend agrees with the server on every covered label. -/
def PageResynced (c polled : CachingClient Callback) (requested : List Str) : Prop :=
  ∀ page ∈ requested, page = c.mutablePageTreeLabelRule ∧
    ∀ nodes synced, B.getPageTree page route.backend = .ok nodes →
      polled.processGetPageTreeResponse nodes = .ok synced →
      ∀ label, Covered route.listeningLabels label →
        Agrees B route synced.localBackend.memoryTree label

/-- The nodes of an answer settle the label: the last one that carries it is what the server
has there, or none does and the tree agrees already. -/
def Settles (nodes : List TreeNode) (before : MemoryTree) (label : Str) : Prop :=
  match lastWritten nodes label with
  | some node => ∃ held, B.getNode label route.backend = .ok held ∧ SameMaybeNode (some node.assign) held
  | none => Agrees B route before label

/-- The condition for recovery from a gap: the page is the one the client always requests,
and its answer settles every covered label. -/
def PageRecovers (c : CachingClient Callback) : Prop :=
  c.mutablePageTreeLabelRule = str "MutableNodes" ∧
    ∀ nodes, B.getPageTree (str "MutableNodes") route.backend = .ok nodes →
      c.localBackend.nodeListeners.Announces (nodes.map TreeNode.labelRule) →
      ∀ label, Covered route.listeningLabels label →
        Settles B route nodes c.localBackend.memoryTree label

variable {B route} {c polled : CachingClient Callback} {requested : List Str}

/-- After the nodes of an answer are written, the tree agrees exactly on what they settle. -/
theorem agrees_upsertNode_iff (nodes : List TreeNode) (before : MemoryTree) (label : Str) :
    Agrees B route (before.upsertNode nodes) label ↔ Settles B route nodes before label := by
  rw [Agrees, Settles, MemoryTree.getNode_upsertNode]
  cases lastWritten nodes label with
  | none => exact Iff.rfl
  | some node => exact Iff.rfl

theorem pageResynced_iff (hPage : requested = [str "MutableNodes"])
    (hSame : polled.localBackend = c.localBackend) :
    PageResynced B route c polled requested ↔ PageRecovers B route c := by
  rw [PageResynced, hPage, List.forall_mem_singleton, PageRecovers, eq_comm]
  refine and_congr_right fun _ => forall_congr' fun nodes => ?_
  constructor
  · intro h hNodes hAnnounces label hCovered
    obtain ⟨synced, hSynced⟩ := (processGetPageTreeResponse_returns_iff polled nodes).mpr
      (hSame ▸ hAnnounces)
    have hAgrees := h synced hNodes hSynced label hCovered
    rw [processGetPageTreeResponse_ok hSynced, hSame, agrees_upsertNode_iff] at hAgrees
    exact hAgrees
  · intro h synced hNodes hSynced label hCovered
    have hAnnounces := (processGetPageTreeResponse_returns_iff polled nodes).mp ⟨synced, hSynced⟩
    rw [hSame] at hAnnounces
    rw [processGetPageTreeResponse_ok hSynced, hSame, agrees_upsertNode_iff]
    exact h hNodes hAnnounces label hCovered

/-- No page but the default one is ever used. -/
theorem not_pageResynced_configured {labelRule : Str} {notifications : List SequentialNotification}
    (hOther : labelRule ≠ str "MutableNodes")
    (hPolled : (c.setMutablePageTreeLabelRule labelRule).processGetJournalResponse notifications =
      .ok (polled, requested)) (hGap : requested ≠ []) :
    ¬PageResynced B route (c.setMutablePageTreeLabelRule labelRule) polled requested := by
  obtain ⟨hPage, hSame⟩ := processGetJournalResponse_gap hPolled hGap
  rw [pageResynced_iff hPage hSame]
  exact fun hRecovers => hOther hRecovers.1

end Resync

section Simple

/-- Every node is under its own label and is copied without loss. -/
def KeepsOwnNodes (tree : MemoryTree) : Prop :=
  ∀ label node, tree.getNode label = some node →
    node.labelRule = label ∧ TreeNode.SameNode node.assign node

variable {route : ServerRoute (SimpleBackend Unit)} {before : MemoryTree} {label : Str}

theorem KeepsOwnNodes.empty : KeepsOwnNodes .empty := by
  intro label node hNode
  rw [MemoryTree.getNode_empty] at hNode
  cases hNode

theorem KeepsOwnNodes.set {tree : MemoryTree} (h : KeepsOwnNodes tree) {node : TreeNode}
    (hCopied : node.assign = node) : KeepsOwnNodes (tree.set node.labelRule node) := by
  intro label stored hStored
  rw [MemoryTree.getNode_set] at hStored
  split at hStored
  · next hLabel =>
    obtain rfl := Option.some.inj hStored
    rw [hCopied, hCopied]
    exact ⟨hLabel, .refl _⟩
  · exact h label stored hStored

/-- A client with these nodes and no listeners of its own. -/
def clientWith (tree : MemoryTree) (journal : Http3ClientBackend) : CachingClient Unit where
  journal := journal
  localBackend := ⟨tree, .empty⟩

/-- The marker for a gap leaves the local backend to the page's answer. -/
theorem processGetJournalResponse_marker (tree : MemoryTree) (journal : Http3ClientBackend)
    {latest : UInt64} (hLatest : latest ≠ unsolicited) :
    (clientWith tree journal).processGetJournalResponse
        [⟨0, [], none⟩, ⟨2, [], none⟩, ⟨latest, [], none⟩] =
      .ok (clientWith tree ⟨⟨latest, [], none⟩, false⟩, [str "MutableNodes"]) := by
  rw [processGetJournalResponse, clientWith, Http3ClientBackend.processGetJournalResponse_marker hLatest]
  rfl

def nodeA : TreeNode := { labelRule := str "A" }

end Simple

end CachingClient

end Wwatp
