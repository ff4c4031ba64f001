import Wwatp.JavaScript.Numbers
import Wwatp.Journal.Safety
import Wwatp.Message.Encode

/-! The journal in the JavaScript client, whose numbers have 32 bits, next to the one of the C++ client. -/
namespace Wwatp
namespace JavaScript

open Cxx

/-- A notification as `decodeChunks_SequentialNotification` returns it. -/
structure ReceivedNotification where
  signalCount : UInt32
  labelRule : Str
  maybeNode : Option TreeNode
  deriving DecidableEq

/-- The number and the label in the text in front of a notification's node. -/
def readNotificationText (text : Str) : UInt32 × Str :=
  let number := text.takeWhile (· ≠ chr ' ')
  (parseUint32 10 number, text.drop (number.length + 1))

/-- What arrives of a notification that a C++ server sends. -/
def received (n : Wwatp.SequentialNotification) : ReceivedNotification :=
  let (signalCount, labelRule) := readNotificationText (notificationText n)
  ⟨signalCount, labelRule, n.node⟩

/-- How a number is read: the low 32 bits of the nearest double. -/
def readNumber (number : UInt64) : UInt32 := .ofNat (nearestDouble number.toNat)

theorem readNumber_of_lt {number : UInt64} (h : number.toNat < 2 ^ 32) : (readNumber number).toNat = number.toNat := by
  rw [readNumber, nearestDouble_of_lt (by omega), UInt32.toNat_ofNat_of_lt' h]

/-- `NONSEQUENTIAL` -/
def nonSequential : UInt32 := 0xFFFFFFFF

/-- The journal side of the JavaScript `Http3ClientBackend`. -/
structure JournalClient where
  lastNotification : ReceivedNotification := ⟨0, [], none⟩
  notificationBlock : Bool := false
  journalRequestWaiting : Bool := false
  mutablePageTreeLabelRule : Str := str "MutableNodes"

/-- What the client does while it handles a journal. -/
inductive JournalEvent
  | applied (signalCount : UInt32) (change : LocalChange)
  /-- a request for the page tree is queued, marked as part of the journal's sync -/
  | pageTreeRequested (labelRule : Str)
  | fullTreeRequested
  deriving DecidableEq

namespace JournalEvent

def change : JournalEvent → Option (UInt32 × LocalChange)
  | applied signalCount change => some (signalCount, change)
  | _ => none

end JournalEvent

namespace JournalClient

def processOneNotification (notification : ReceivedNotification) : JournalEvent :=
  .applied notification.signalCount <|
    match notification.maybeNode with
    | some node => .upsertNode node
    | none => .deleteNode notification.labelRule

/-- The first loop over a response. -/
def findGap (curIndex : UInt32) : List ReceivedNotification → Bool
  | [] => false
  | sn :: rest =>
    if sn.signalCount = nonSequential then findGap curIndex rest
    else if sn.signalCount > curIndex + 1 then true
    else findGap sn.signalCount rest

/-- The second loop: what it applies, which does not depend on a gap, and the last valid notification. -/
def applyLoop (last : UInt32) (lastValid : Option ReceivedNotification) :
    List ReceivedNotification → List JournalEvent × Option ReceivedNotification
  | [] => ([], lastValid)
  | sn :: rest =>
    let applied := if sn.signalCount > last then [processOneNotification sn] else []
    let lastValid := if sn.signalCount = nonSequential then lastValid else some sn
    let (events, valid) := applyLoop last lastValid rest
    (applied ++ events, valid)

def updateLastNotification (client : JournalClient) (notification : ReceivedNotification) : JournalClient :=
  { client with lastNotification := notification }

/-- The client after the last notification that a C++ client has noted. -/
def noted (client : JournalClient) (last : SequentialNotification) : JournalClient :=
  { client with lastNotification := received last }

end JournalClient

/-- A number is left out: `first` does not follow `last`, or a numbered notification does not follow the one
before it. -/
def LeavesOut {N : Type} [LT N] [Add N] [One N] [DecidableEq N] (marker last first : N) (numbers : List N) : Prop :=
  last < first ∨ ¬List.IsChain (fun current next => ¬current + 1 < next) (first :: numbers.filter (· ≠ marker))

namespace JournalClient

end JournalClient

/-- The last number that is not the marker. -/
def lastNumber {N : Type} [DecidableEq N] (marker last : N) (numbers : List N) : N :=
  (numbers.filter (· ≠ marker)).getLast?.getD last

/-- What is read of the numbers says the same as the numbers: whether one is left out, which notifications are
later than the last one (each of them has a label, and if a number is left out there are none), and the last number. -/
structure ReadAlike (last front : SequentialNotification) (notifications : List SequentialNotification) : Prop where
  gap : LeavesOut nonSequential (readNumber last.number) (readNumber front.number)
      (notifications.map fun n => readNumber n.number) ↔
    LeavesOut unsolicited last.number front.number (notifications.map (·.number))
  later : ∀ n ∈ notifications, readNumber last.number < readNumber n.number ↔
    ¬LeavesOut unsolicited last.number front.number (notifications.map (·.number)) ∧
      last.number < n.number ∧ n.labelRule ≠ []
  lastNumber : (lastNumber nonSequential (readNumber last.number)
      (notifications.map fun n => readNumber n.number)).toNat =
    (lastNumber unsolicited last.number (notifications.map (·.number))).toNat

/-- The last valid notification in C++. -/
theorem applyLoop_lastValid (notificationGap : Bool) (last : UInt64) (lastValid : SequentialNotification)
    (notifications : List SequentialNotification) :
    (Http3ClientBackend.applyLoop notificationGap last lastValid notifications).2 =
      ((notifications.filter fun n => n.number ≠ unsolicited).getLast?).getD lastValid := by
  induction notifications generalizing lastValid with
  | nil => rfl
  | cons n rest ih =>
    simp only [Http3ClientBackend.applyLoop, ih, List.filter_cons]
    by_cases hMarker : n.number = unsolicited
    · simp [hMarker]
    · simp [hMarker, List.getLast?_cons]

section Response

variable (cxx : Http3ClientBackend) (js : JournalClient) (front : SequentialNotification)
  (rest : List SequentialNotification)

end Response

section Small

variable {number : UInt64} (h : number.toNat < 2 ^ 32 - 1)
include h

theorem ne_unsolicited_of_small : number ≠ unsolicited := by
  rintro rfl
  exact absurd h (by decide)

theorem readNumber_ne_of_small : readNumber number ≠ nonSequential := by
  intro hEq
  have hValue := @readNumber_of_lt number (by omega)
  rw [hEq] at hValue
  have hMarker : nonSequential.toNat = 2 ^ 32 - 1 := by decide
  omega

theorem readNumber_lt_iff {other : UInt64} (hOther : other.toNat < 2 ^ 32 - 1) :
    readNumber number < readNumber other ↔ number < other := by
  rw [UInt32.lt_iff_toNat_lt, UInt64.lt_iff_toNat_lt, readNumber_of_lt (by omega), readNumber_of_lt (by omega)]

theorem readNumber_next_lt_iff {other : UInt64} (hOther : other.toNat < 2 ^ 32 - 1) :
    readNumber number + 1 < readNumber other ↔ number + 1 < other := by
  rw [UInt32.lt_iff_toNat_lt, UInt64.lt_iff_toNat_lt, UInt32.toNat_add, UInt64.toNat_add, readNumber_of_lt (by omega),
    readNumber_of_lt (by omega), UInt32.toNat_one, UInt64.toNat_one, Nat.mod_eq_of_lt (by omega),
    Nat.mod_eq_of_lt (by omega)]

end Small

/-- Where all numbers are below the marker, the clients agree exactly when each later notification has a label
and, if there is one, no number is left out. -/
theorem readAlike_iff_of_small {last front : SequentialNotification} {notifications : List SequentialNotification}
    (hLast : last.number.toNat < 2 ^ 32 - 1) (hFront : front ∈ notifications)
    (hSmall : ∀ n ∈ notifications, n.number.toNat < 2 ^ 32 - 1) :
    ReadAlike last front notifications ↔ ∀ n ∈ notifications, last.number < n.number →
      n.labelRule ≠ [] ∧ ¬LeavesOut unsolicited last.number front.number (notifications.map (·.number)) := by
  have hSent : (notifications.map (·.number)).filter (· ≠ unsolicited) = notifications.map (·.number) :=
    List.filter_eq_self.mpr (List.forall_mem_map.mpr fun n hn => decide_eq_true (ne_unsolicited_of_small (hSmall n hn)))
  have hRead : (notifications.map fun n => readNumber n.number).filter (· ≠ nonSequential) =
      notifications.map fun n => readNumber n.number :=
    List.filter_eq_self.mpr (List.forall_mem_map.mpr fun n hn => decide_eq_true (readNumber_ne_of_small (hSmall n hn)))
  have hGap : LeavesOut nonSequential (readNumber last.number) (readNumber front.number)
        (notifications.map fun n => readNumber n.number) ↔
      LeavesOut unsolicited last.number front.number (notifications.map (·.number)) := by
    have hFrontSent : front.number :: notifications.map (·.number) = (front :: notifications).map (·.number) := rfl
    have hFrontRead : readNumber front.number :: (notifications.map fun n => readNumber n.number) =
      (front :: notifications).map fun n => readNumber n.number := rfl
    rw [LeavesOut, LeavesOut, hSent, hRead, readNumber_lt_iff hLast (hSmall front hFront), hFrontSent, hFrontRead,
      List.isChain_map, List.isChain_map]
    refine or_congr_right (not_congr (List.IsChain.iff_of_mem_imp fun m n hm hn => not_congr ?_))
    have hAll : ∀ n ∈ front :: notifications, n.number.toNat < 2 ^ 32 - 1 :=
      List.forall_mem_cons.mpr ⟨hSmall front hFront, hSmall⟩
    exact readNumber_next_lt_iff (hAll m hm) (hAll n hn)
  have hNumber : (lastNumber nonSequential (readNumber last.number) (notifications.map fun n => readNumber n.number)).toNat =
      (lastNumber unsolicited last.number (notifications.map (·.number))).toNat := by
    rw [lastNumber, lastNumber, hSent, hRead, List.getLast?_map, List.getLast?_map]
    cases hFinal : notifications.getLast? with
    | none => exact readNumber_of_lt (by omega)
    | some final =>
      have hBound := hSmall final (List.mem_of_getLast? hFinal)
      exact readNumber_of_lt (by omega)
  constructor
  · intro hAlike n hn hLater
    obtain ⟨hGap, -, hLabel⟩ := (hAlike.later n hn).mp ((readNumber_lt_iff hLast (hSmall n hn)).mpr hLater)
    exact ⟨hLabel, hGap⟩
  · intro hLater
    refine ⟨hGap, fun n hn => ?_, hNumber⟩
    rw [readNumber_lt_iff hLast (hSmall n hn)]
    exact ⟨fun h => ⟨(hLater n hn h).2, h, (hLater n hn h).1⟩, fun h => h.2.1⟩

end JavaScript
end Wwatp
