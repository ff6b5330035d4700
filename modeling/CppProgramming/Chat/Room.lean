import CppProgramming.Chat.Connection
import CppProgramming.Lib.Transition
import Mathlib.Data.Finset.Erase
import Mathlib.Data.Finset.Insert
import Mathlib.Logic.Function.Basic
import Mathlib.Tactic.IntervalCases

/-!
# The chat room: `chat_server.cpp` and `chat_client.cpp`

Clients send the lines that are typed to them as messages; the server gives every message
that comes to all participants of the room, and to a participant that joins the last hundred.
Client `i` has its session of the same number.  Bytes may take any time on their way, and come in
pieces; every read and every write may fail at any time.

The order in which the messages come to the server (`log`) is the same for everybody:
`chat_prints` says that every client prints the last hundred messages before it has joined and
all from then on, and that the messages of one client are the lines that were typed to it, in
their order and without a gap.
-/

namespace CppProgramming.Chat

open CppProgramming.Lib

inductive Side
  | client
  | server
deriving DecidableEq

def Side.other : Side → Side
  | client => server
  | server => client

/-- The server, and its clients. -/
structure State where
  conn : Side → ℕ → Conn
  /-- The connection was accepted. -/
  connected : ℕ → Bool
  /-- The client has closed its socket. -/
  closed : ℕ → Bool
  /-- What was posted to the thread of the client and is not handled. -/
  posted : ℕ → List Message
  /-- What was typed. -/
  lines : ℕ → List (List UInt8)
  /-- No more is typed. -/
  ended : ℕ → Bool
  participants_ : Finset ℕ
  recent_msgs_ : List Message
  /-- All messages that were delivered to the room, with who has sent them. -/
  log : List (ℕ × Message)
  /-- The length of the log when the participant joined. -/
  joined : ℕ → ℕ
  /-- The length of the log when the participant left. -/
  left : ℕ → Option ℕ

inductive Label
  | connect (i : ℕ)
  /-- A line is typed that fits, and a handler is posted for it. -/
  | post (i : ℕ) (line : List UInt8)
  | handle (i : ℕ)
  /-- The end of the input, or a line that `getline` has no room for. -/
  | close (i : ℕ)
  | transmit (side : Side) (i k : ℕ)
  | arrive (side : Side) (i k : ℕ)
  | written (side : Side) (i : ℕ)
  | writeError (side : Side) (i : ℕ)
  | readHeader (side : Side) (i : ℕ)
  | readBody (side : Side) (i : ℕ)
  | readError (side : Side) (i : ℕ)

def maxRecentMsgs : ℕ := 100

/-- `while (recent_msgs_.size() > max_recent_msgs) recent_msgs_.pop_front();` -/
def trim : List Message → List Message
  | [] => []
  | m :: ms => if (m :: ms).length > maxRecentMsgs then trim ms else m :: ms

namespace State

variable (s : State)

def setConn (side : Side) (i : ℕ) (c : Conn) : State :=
  { s with conn := Function.update s.conn side (Function.update (s.conn side) i c) }

/-- `room_.leave` -/
def leave (i : ℕ) : State :=
  { s with
    participants_ := s.participants_.erase i
    left := Function.update s.left i (some ((s.left i).getD s.log.length)) }

/-- `room_.join`, for a new session -/
def join (i : ℕ) : State :=
  { s with
    participants_ := insert i s.participants_
    joined := Function.update s.joined i s.log.length
    conn := Function.update s.conn .server (Function.update (s.conn .server) i
      (s.recent_msgs_.foldl Conn.deliver (s.conn .server i))) }

/-- `room_.deliver` -/
def deliver (i : ℕ) (m : Message) : State :=
  { s with
    recent_msgs_ := trim (s.recent_msgs_ ++ [m])
    conn := Function.update s.conn .server fun j =>
      if j ∈ s.participants_ then (s.conn .server j).deliver m else s.conn .server j
    log := s.log ++ [(i, m)] }

/-- `socket_.close()` of the client -/
def closeSocket (i : ℕ) : State :=
  let s := s.setConn .client i (s.conn .client i).close
  { s with closed := Function.update s.closed i true }

/-- What is done after an error. -/
def onError : Side → ℕ → State
  | .server, i => s.leave i
  | .client, i => s.closeSocket i

/-- The socket can be used. -/
def usable (side : Side) (i : ℕ) : Bool :=
  s.connected i && match side with
    | .client => !s.closed i
    | .server => true

def next : Label → Option State
  | .connect i =>
    if s.connected i || s.closed i then none
    else
      let s := { s with connected := Function.update s.connected i true }
      some (s.join i)
  | .post i line =>
    if s.ended i || decide (maxBodyLength < line.length) then none
    else some { s with
      lines := Function.update s.lines i (s.lines i ++ [line])
      posted := Function.update s.posted i (s.posted i ++ [.ofLine line]) }
  | .handle i =>
    match s.posted i with
    | m :: ms =>
      let s := { s with posted := Function.update s.posted i ms }
      some (s.setConn .client i ((s.conn .client i).deliver m))
    | [] => none
  | .close i =>
    match s.posted i with
    | [] =>
      let s := { s with ended := Function.update s.ended i true }
      some (s.closeSocket i)
    | _ :: _ => none
  | .transmit side i k =>
    if s.usable side i then ((s.conn side i).transmit k).map (s.setConn side i) else none
  | .arrive side i k =>
    if s.usable side i then
      ((s.conn side i).arrive (s.conn side.other i).writer.wire k).map (s.setConn side i)
    else none
  | .written side i =>
    if s.usable side i then (s.conn side i).written.map (s.setConn side i) else none
  | .writeError side i =>
    (s.conn side i).fail.map fun c => (s.setConn side i c).onError side i
  | .readHeader side i =>
    if s.usable side i then
      (s.conn side i).readHeader.map fun c =>
        match c.reader.reading with
        | .closed => (s.setConn side i c).onError side i
        | _ => s.setConn side i c
    else none
  | .readBody side i =>
    if s.usable side i then
      (s.conn side i).readBody.map fun (m, c) =>
        match side with
        | .server => (s.setConn side i c).deliver i m
        | .client => s.setConn side i c
    else none
  | .readError side i =>
    if s.usable side i then
      match (s.conn side i).reader.reading with
      | .closed => none
      | _ => some ((s.setConn side i (s.conn side i).close).onError side i)
    else none

end State

def State.initial : State where
  conn _ _ := .fresh
  connected _ := false
  closed _ := false
  posted _ := []
  lines _ := []
  ended _ := false
  participants_ := ∅
  recent_msgs_ := []
  log := []
  joined _ := 0
  left _ := none

def system : System State Label := .ofStep (· = .initial) State.next

/-! ### What the operations do -/

theorem trim_eq (ms : List Message) : trim ms = ms.drop (ms.length - maxRecentMsgs) := by
  induction ms with
  | nil => rfl
  | cons m ms ih =>
    rw [trim]
    split
    · rename_i hlong
      rw [List.length_cons] at hlong ⊢
      rw [ih, Nat.sub_add_comm (Nat.le_of_lt_succ hlong), List.drop_succ_cons]
    · rename_i hshort
      rw [Nat.sub_eq_zero_of_le (Nat.not_lt.mp hshort), List.drop_zero]

/-- The last messages of the log are known from the last ones before. -/
theorem trim_trim_append (ms : List Message) (m : Message) :
    trim (trim ms ++ [m]) = trim (ms ++ [m]) := by
  rw [trim_eq ms, trim_eq, trim_eq (ms ++ [m])]
  simp only [List.length_append, List.length_drop, List.length_singleton]
  generalize maxRecentMsgs = n
  rcases Nat.le_total ms.length n with hle | hge
  · rw [Nat.sub_eq_zero_of_le hle, List.drop_zero, Nat.sub_zero]
  · rw [← List.drop_append_of_le_length (by omega), List.drop_drop]
    congr 1
    omega

variable {s s' : State} {side : Side} {i j : ℕ} {c : Conn} {m : Message}

@[simp] theorem Side.other_other (side : Side) : side.other.other = side := by
  cases side <;> rfl

theorem Side.other_ne (side : Side) : side.other ≠ side := by
  cases side <;> exact nofun

theorem setConn_self (s : State) (side : Side) (i : ℕ) (c : Conn) :
    (s.setConn side i c).conn side i = c := by
  simp [State.setConn]

theorem setConn_of_ne {side' : Side} (h : ¬(side' = side ∧ j = i)) :
    (s.setConn side i c).conn side' j = s.conn side' j := by
  rcases eq_or_ne side' side with rfl | hside
  · have hji : j ≠ i := fun heq => h ⟨rfl, heq⟩
    simp [State.setConn, Function.update_of_ne hji]
  · simp [State.setConn, Function.update_of_ne hside]

namespace State

/-- All messages so far. -/
def messages (s : State) : List Message := s.log.map Prod.snd

/-- What the session is to send: the last messages before it has joined, and all from then on
until it left. -/
def given (s : State) (i : ℕ) : List Message :=
  trim (s.messages.take (s.joined i)) ++
    (s.messages.take ((s.left i).getD s.log.length)).drop (s.joined i)

/-- The messages of one client. -/
def sentBy (s : State) (i : ℕ) : List Message := (s.log.filter (·.1 = i)).map Prod.snd

end State

/-- **The invariant.** -/
structure Inv (s : State) : Prop where
  right : ∀ side i, (s.conn side i).Right (s.conn side.other i).writer.wire
  recent : s.recent_msgs_ = trim s.messages
  member : ∀ i, i ∈ s.participants_ ↔ s.connected i = true ∧ s.left i = none
  joined : ∀ i, s.joined i ≤ (s.left i).getD s.log.length ∧
    (s.left i).getD s.log.length ≤ s.log.length
  given : ∀ i, s.connected i = true → (s.conn .server i).gave = s.given i
  sent : ∀ i, s.sentBy i = (s.conn .server i).took
  typed : ∀ i, (s.conn .client i).gave ++ s.posted i = (s.lines i).map Message.ofLine
  fresh : ∀ i, s.connected i = false → s.conn .server i = .fresh ∧ s.left i = none

theorem right_setConn (h : ∀ side i, (s.conn side i).Right (s.conn side.other i).writer.wire)
    (hc : c.Right (s.conn side.other i).writer.wire)
    (hwire : (s.conn side i).writer.wire <+: c.writer.wire) (side' : Side) (j : ℕ) :
    ((s.setConn side i c).conn side' j).Right
      ((s.setConn side i c).conn side'.other j).writer.wire := by
  rcases eq_or_ne j i with rfl | hj
  · rcases eq_or_ne side' side with rfl | hside
    · rwa [setConn_self, setConn_of_ne fun hend => side'.other_ne hend.1]
    · obtain rfl : side'.other = side := by
        cases side <;> cases side' <;> first | rfl | exact absurd rfl hside
      rw [setConn_self, setConn_of_ne fun hend => hside hend.1]
      obtain ⟨more, hmore⟩ := hwire
      rw [← hmore]
      exact (h side' j).append more
  · rw [setConn_of_ne fun hend => hj hend.2, setConn_of_ne fun hend => hj hend.2]
    exact h side' j

/-- An operation on one end that delivers nothing to it; and nothing is read from it, if it is of
the server. -/
theorem Inv.setConn (h : Inv s) (hc : c.Right (s.conn side.other i).writer.wire)
    (hwire : (s.conn side i).writer.wire <+: c.writer.wire) (hgave : c.gave = (s.conn side i).gave)
    (htook : .server = side → c.took = (s.conn side i).took)
    (huse : .server = side → s.connected i = true) :
    Inv (s.setConn side i c) where
  right := right_setConn h.right hc hwire
  recent := h.recent
  member := h.member
  joined := h.joined
  given j hj := by
    have hgiven := h.given j hj
    by_cases hend : Side.server = side ∧ j = i
    · obtain ⟨rfl, rfl⟩ := hend
      rw [setConn_self, hgave]
      exact hgiven
    · rw [setConn_of_ne hend]
      exact hgiven
  sent j := by
    have hsent := h.sent j
    by_cases hend : Side.server = side ∧ j = i
    · obtain ⟨rfl, rfl⟩ := hend
      rw [setConn_self, htook rfl]
      exact hsent
    · rw [setConn_of_ne hend]
      exact hsent
  typed j := by
    have htyped := h.typed j
    by_cases hend : Side.client = side ∧ j = i
    · obtain ⟨rfl, rfl⟩ := hend
      rw [setConn_self, hgave]
      exact htyped
    · rw [setConn_of_ne hend]
      exact htyped
  fresh j hj := by
    have hend : ¬(Side.server = side ∧ j = i) := fun ⟨hside, heq⟩ => by
      have hj' : s.connected j = false := hj
      rw [heq, huse hside] at hj'
      exact nomatch hj'
    rw [setConn_of_ne hend]
    exact h.fresh j hj

theorem Inv.leave (h : Inv s) (huse : s.connected i = true) : Inv (s.leave i) where
  right := h.right
  recent := h.recent
  member j := by
    have hmember := h.member j
    rcases eq_or_ne j i with rfl | hne
    · simp [State.leave]
    · simp only [State.leave, Finset.mem_erase, ne_eq, hne, not_false_iff, true_and,
        Function.update_of_ne hne]
      exact hmember
  joined j := by
    have hjoined := h.joined j
    rcases eq_or_ne j i with rfl | hne
    · simpa [State.leave] using hjoined
    · simpa [State.leave, Function.update_of_ne hne] using hjoined
  given j hj := by
    have hgiven := h.given j hj
    rcases eq_or_ne j i with rfl | hne
    · simpa [State.leave, State.given, State.messages] using hgiven
    · simpa [State.leave, State.given, State.messages, Function.update_of_ne hne] using hgiven
  sent := h.sent
  typed := h.typed
  fresh j hj := by
    have hne : j ≠ i := fun heq => by
      have hj' : s.connected j = false := hj
      rw [heq, huse] at hj'
      exact nomatch hj'
    have hfresh := h.fresh j hj
    simpa [State.leave, Function.update_of_ne hne] using hfresh

theorem Inv.closeSocket (h : Inv s) (i : ℕ) : Inv (s.closeSocket i) := by
  have hclose := h.setConn (c := (s.conn .client i).close) (h.right .client i).close
    (List.prefix_refl _) rfl nofun nofun
  exact ⟨hclose.right, hclose.recent, hclose.member, hclose.joined, hclose.given, hclose.sent,
    hclose.typed, hclose.fresh⟩

theorem Inv.onError (h : Inv s) (huse : .server = side → s.connected i = true) :
    Inv (s.onError side i) := by
  cases side with
  | server => exact h.leave (huse rfl)
  | client => exact h.closeSocket i

/-! Joining -/

theorem deliver_gave (c : Conn) (m : Message) : (c.deliver m).gave = c.gave ++ [m] := rfl

theorem deliver_wire (c : Conn) (m : Message) : (c.deliver m).writer.wire = c.writer.wire := by
  simp only [Conn.deliver, Writer.deliver]
  split <;> rfl

theorem foldl_deliver (ms : List Message) (c : Conn) :
    (ms.foldl Conn.deliver c).gave = c.gave ++ ms ∧ (ms.foldl Conn.deliver c).took = c.took ∧
      (ms.foldl Conn.deliver c).writer.wire = c.writer.wire := by
  induction ms generalizing c with
  | nil => exact ⟨(List.append_nil _).symm, rfl, rfl⟩
  | cons m ms ih =>
    obtain ⟨hgave, htook, hwire⟩ := ih (c.deliver m)
    refine ⟨?_, htook, hwire.trans (deliver_wire c m)⟩
    rw [List.foldl_cons, hgave, Conn.deliver, List.append_assoc, List.singleton_append]

theorem right_foldl_deliver {wire : List UInt8} (ms : List Message) (h : c.Right wire) :
    (ms.foldl Conn.deliver c).Right wire := by
  induction ms generalizing c with
  | nil => exact h
  | cons m ms ih => exact ih (h.deliver m)

theorem Inv.connect (h : Inv s) (hnew : s.connected i = false) :
    Inv (({ s with connected := Function.update s.connected i true } : State).join i) := by
  obtain ⟨hfresh, hleft⟩ := h.fresh i hnew
  obtain ⟨hgave, htook, hwire⟩ := foldl_deliver s.recent_msgs_ (s.conn .server i)
  have hserver : ∀ j, j ≠ i →
      (({ s with connected := Function.update s.connected i true } : State).join i).conn .server j =
        s.conn .server j := fun j hj => by
    simp [State.join, Function.update_of_ne hj]
  exact {
    right := right_setConn h.right (right_foldl_deliver _ (h.right .server i))
      (hwire ▸ List.prefix_refl _)
    recent := h.recent
    member := fun j => by
      have hmember := h.member j
      rcases eq_or_ne j i with rfl | hne
      · simp [State.join, hleft]
      · simpa [State.join, Function.update_of_ne hne, hne] using hmember
    joined := fun j => by
      have hjoined := h.joined j
      rcases eq_or_ne j i with rfl | hne
      · simp [State.join, hleft]
      · simpa [State.join, Function.update_of_ne hne] using hjoined
    given := fun j hj => by
      rcases eq_or_ne j i with rfl | hne
      · have hnow : ∀ l : List Message, l.length = s.log.length →
            trim (l.take s.log.length) ++ (l.take s.log.length).drop s.log.length = trim l :=
          fun l hl => by rw [← hl, List.take_length, List.drop_length, List.append_nil]
        simp only [State.join, Function.update_self, State.given, State.messages, hleft,
          Option.getD_none]
        rw [hgave, hfresh, h.recent]
        exact (hnow _ (List.length_map ..)).symm
      · have hgiven := h.given j (by simpa [State.join, Function.update_of_ne hne] using hj)
        rw [hserver j hne, hgiven]
        simp [State.join, State.given, State.messages, Function.update_of_ne hne]
    sent := fun j => by
      have hsent := h.sent j
      rcases eq_or_ne j i with rfl | hne
      · simp only [State.join, Function.update_self]
        rw [htook]
        exact hsent
      · rw [hserver j hne]
        exact hsent
    typed := h.typed
    fresh := fun j hj => by
      rcases eq_or_ne j i with rfl | hne
      · simp [State.join] at hj
      · rw [hserver j hne]
        exact h.fresh j (by simpa [State.join, Function.update_of_ne hne] using hj) }

/-! A message comes to the room -/

theorem given_append (ms : List Message) (m : Message) {k : ℕ} (hk : k ≤ ms.length) :
    trim ((ms ++ [m]).take k) ++ (ms ++ [m]).drop k = trim (ms.take k) ++ ms.drop k ++ [m] := by
  rw [List.take_append_of_le_length hk, List.drop_append_of_le_length hk, List.append_assoc]

/-- The session of client `i`, with its end of the connection now `c`, has read `m`. -/
theorem Inv.deliver (h : Inv s) (huse : s.connected i = true)
    (hc : c.Right (s.conn .client i).writer.wire)
    (hwire : c.writer.wire = (s.conn .server i).writer.wire)
    (hgave : c.gave = (s.conn .server i).gave) (htook : c.took = (s.conn .server i).took ++ [m]) :
    Inv ((s.setConn .server i c).deliver i m) := by
  have hu : ∀ side j, ((s.setConn .server i c).conn side j).Right
      ((s.setConn .server i c).conn side.other j).writer.wire :=
    right_setConn h.right hc (hwire ▸ List.prefix_refl _)
  have hgaves : ∀ j, ((s.setConn .server i c).conn .server j).gave = (s.conn .server j).gave := by
    intro j
    rcases eq_or_ne j i with rfl | hne
    · rw [setConn_self, hgave]
    · rw [setConn_of_ne fun hend => hne hend.2]
  have hserver : ∀ j, ((s.setConn .server i c).deliver i m).conn .server j =
      if j ∈ s.participants_ then ((s.setConn .server i c).conn .server j).deliver m
      else (s.setConn .server i c).conn .server j := fun j => by
    simp [State.deliver, State.setConn]
  have hclient : ∀ j, ((s.setConn .server i c).deliver i m).conn .client j = s.conn .client j :=
    fun j => by simp [State.deliver, State.setConn]
  have hclientu : ∀ j, (s.setConn .server i c).conn .client j = s.conn .client j :=
    fun j => setConn_of_ne fun hend => nomatch hend.1
  have hlen : s.messages.length = s.log.length := List.length_map ..
  have hmessages : ((s.setConn .server i c).deliver i m).messages = s.messages ++ [m] := by
    rw [State.messages, State.deliver]
    exact List.map_append
  refine ⟨fun side j => ?_, ?_, h.member, fun j => ?_, fun j hj => ?_, fun j => ?_, fun j => ?_,
    fun j hj => ?_⟩
  · cases side with
    | server =>
      have hright := hu .server j
      rw [show Side.server.other = Side.client from rfl, hclientu] at hright
      rw [show Side.server.other = Side.client from rfl, hclient, hserver]
      split
      · exact hright.deliver m
      · exact hright
    | client =>
      have hright := hu .client j
      rw [show Side.client.other = Side.server from rfl, hclientu] at hright
      rw [hclient, show Side.client.other = Side.server from rfl, hserver]
      split
      · rwa [deliver_wire]
      · exact hright
  · rw [hmessages, ← trim_trim_append, ← h.recent]
    rfl
  · have hjoined := h.joined j
    simp only [State.deliver, State.setConn, List.length_append, List.length_singleton]
    cases hleft : s.left j with
    | none =>
      rw [hleft] at hjoined
      simp only [Option.getD_none] at hjoined ⊢
      omega
    | some n =>
      rw [hleft] at hjoined
      simp only [Option.getD_some] at hjoined ⊢
      omega
  · have hgiven := h.given j hj
    have hmember := h.member j
    have hjoined := h.joined j
    rw [State.given] at hgiven
    have hnow : ((s.setConn .server i c).deliver i m).given j =
        trim ((s.messages ++ [m]).take (s.joined j)) ++
          ((s.messages ++ [m]).take ((s.left j).getD (s.log.length + 1))).drop (s.joined j) := by
      rw [State.given, hmessages]
      simp only [State.deliver, State.setConn, List.length_append, List.length_singleton]
    rw [hserver, hnow]
    cases hleft : s.left j with
    | none =>
      rw [hleft] at hgiven hjoined
      have htake : s.messages.take s.log.length = s.messages := by rw [← hlen, List.take_length]
      have htake' : (s.messages ++ [m]).take (s.log.length + 1) = s.messages ++ [m] :=
        List.take_of_length_le (by rw [List.length_append, hlen]; exact le_rfl)
      simp only [Option.getD_none] at hjoined hgiven ⊢
      rw [if_pos (hmember.mpr ⟨hj, hleft⟩), deliver_gave, hgaves, hgiven, htake, htake']
      exact (given_append _ _ (hlen ▸ hjoined.1)).symm
    | some n =>
      rw [hleft] at hgiven hjoined
      simp only [Option.getD_some] at hjoined hgiven ⊢
      have hout : j ∉ s.participants_ := fun hin => by
        rw [(hmember.mp hin).2] at hleft
        exact nomatch hleft
      rw [if_neg hout, hgaves, hgiven, List.take_append_of_le_length (by omega),
        List.take_append_of_le_length (by omega)]
  · have hsent := h.sent j
    have htooks : (((s.setConn .server i c).deliver i m).conn .server j).took =
        ((s.setConn .server i c).conn .server j).took := by
      rw [hserver]
      split <;> rfl
    have hnow : ((s.setConn .server i c).deliver i m).sentBy j =
        s.sentBy j ++ if j = i then [m] else [] := by
      simp only [State.sentBy, State.deliver, State.setConn, List.filter_append, List.map_append]
      rcases eq_or_ne j i with rfl | hne
      · simp
      · simp [hne, hne.symm]
    rw [htooks, hnow]
    rcases eq_or_ne j i with rfl | hne
    · rw [setConn_self, htook, hsent, if_pos rfl]
    · rw [setConn_of_ne fun hend => hne hend.2, hsent, if_neg hne, List.append_nil]
  · rw [hclient]
    exact h.typed j
  · have hfresh := h.fresh j hj
    have hne : j ≠ i := fun heq => by
      have hj' : s.connected j = false := hj
      rw [heq, huse] at hj'
      exact nomatch hj'
    have hout : j ∉ s.participants_ := fun hin => by
      have hj' : s.connected j = false := hj
      rw [((h.member j).mp hin).1] at hj'
      exact nomatch hj'
    rw [hserver, if_neg hout, setConn_of_ne fun hend => hne hend.2]
    exact hfresh

/-! ### Every step -/

/-- A line is typed. -/
theorem Inv.post (h : Inv s) (i : ℕ) (line : List UInt8) : Inv { s with
    lines := Function.update s.lines i (s.lines i ++ [line])
    posted := Function.update s.posted i (s.posted i ++ [.ofLine line]) } where
  right := h.right
  recent := h.recent
  member := h.member
  joined := h.joined
  given := h.given
  sent := h.sent
  typed j := by
    have htyped := h.typed j
    rcases eq_or_ne j i with rfl | hne
    · simp only [Function.update_self]
      rw [← List.append_assoc, htyped, List.map_append, List.map_singleton]
    · simpa only [Function.update_of_ne hne] using htyped
  fresh := h.fresh

theorem Inv.handle (h : Inv s) {ms : List Message} (hposted : s.posted i = m :: ms) :
    Inv (({ s with posted := Function.update s.posted i ms } : State).setConn .client i
      ((s.conn .client i).deliver m)) := by
  have hserver : ∀ j, (s.setConn .client i ((s.conn .client i).deliver m)).conn .server j =
      s.conn .server j := fun j => setConn_of_ne fun hend => nomatch hend.1
  exact {
    right := right_setConn h.right ((h.right .client i).deliver m)
      (deliver_wire _ m ▸ List.prefix_refl _)
    recent := h.recent
    member := h.member
    joined := h.joined
    given := fun j hj => (congrArg Conn.gave (hserver j)).trans (h.given j hj)
    sent := fun j => (h.sent j).trans (congrArg Conn.took (hserver j)).symm
    typed := fun j => by
      have htyped := h.typed j
      rcases eq_or_ne j i with rfl | hne
      · rw [setConn_self, deliver_gave, List.append_assoc]
        simp only [State.setConn, Function.update_self]
        rw [← htyped, hposted]
        rfl
      · rw [setConn_of_ne fun hend => hne hend.2]
        simpa only [State.setConn, Function.update_of_ne hne] using htyped
    fresh := fun j hj => ⟨(hserver j).trans (h.fresh j hj).1, (h.fresh j hj).2⟩ }

/-- Neither is anything delivered to the end, nor read from it. -/
structure Conn.Same (c c' : Conn) : Prop where
  wire : c.writer.wire <+: c'.writer.wire
  gave : c'.gave = c.gave
  took : c'.took = c.took

theorem same_transmit {c' : Conn} {k : ℕ} (h : c.transmit k = some c') : c.Same c' := by
  obtain ⟨w, hw, rfl⟩ := Option.map_eq_some_iff.mp h
  rw [Writer.transmit] at hw
  split at hw
  · split at hw
    · obtain rfl := Option.some.inj hw
      exact ⟨List.prefix_append .., rfl, rfl⟩
    · cases hw
  · cases hw

theorem same_arrive {c' : Conn} {wire : List UInt8} {k : ℕ} (h : c.arrive wire k = some c') :
    c.Same c' := by
  obtain ⟨-, h⟩ := Option.ite_none_right_eq_some.mp h
  obtain rfl := Option.some.inj h
  exact ⟨List.prefix_refl _, rfl, rfl⟩

theorem same_written {c' : Conn} (h : c.written = some c') : c.Same c' := by
  obtain ⟨w, hw, rfl⟩ := Option.map_eq_some_iff.mp h
  rw [Writer.written] at hw
  split at hw
  · obtain rfl := Option.some.inj hw
    refine ⟨?_, rfl, rfl⟩
    split <;> exact List.prefix_refl _
  · exact nomatch hw

theorem same_fail {c' : Conn} (h : c.fail = some c') : c.Same c' := by
  obtain ⟨w, hw, rfl⟩ := Option.map_eq_some_iff.mp h
  rw [Writer.fail] at hw
  split at hw
  · obtain rfl := Option.some.inj hw
    exact ⟨List.prefix_refl _, rfl, rfl⟩
  · exact nomatch hw

theorem same_readHeader {c' : Conn} (h : c.readHeader = some c') : c.Same c' := by
  obtain ⟨r, -, rfl⟩ := Option.map_eq_some_iff.mp h
  exact ⟨List.prefix_refl _, rfl, rfl⟩

theorem same_close (c : Conn) : c.Same c.close := ⟨List.prefix_refl _, rfl, rfl⟩

theorem Inv.same (h : Inv s) (hsame : (s.conn side i).Same c)
    (hright : c.Right (s.conn side.other i).writer.wire)
    (huse : .server = side → s.connected i = true) : Inv (s.setConn side i c) :=
  h.setConn hright hsame.wire hsame.gave (fun _ => hsame.took) huse

theorem connected_of_usable (h : s.usable side i = true) : s.connected i = true :=
  (Bool.and_eq_true_iff.mp h).1

theorem Inv.next (h : Inv s) {l : Label} (hs : s.next l = some s') : Inv s' := by
  cases l with
  | connect i =>
    rw [State.next, Option.ite_none_left_eq_some] at hs
    obtain ⟨hnew, hs⟩ := hs
    obtain rfl := Option.some.inj hs
    refine h.connect ?_
    cases hcon : s.connected i with
    | false => rfl
    | true => simp [hcon] at hnew
  | post i line =>
    rw [State.next, Option.ite_none_left_eq_some] at hs
    obtain rfl := Option.some.inj hs.2
    exact h.post i line
  | handle i =>
    rw [State.next] at hs
    split at hs
    · rename_i m ms hposted
      obtain rfl := Option.some.inj hs
      exact h.handle hposted
    · exact nomatch hs
  | close i =>
    rw [State.next] at hs
    split at hs
    · obtain rfl := Option.some.inj hs
      have hclose := h.closeSocket i
      exact ⟨hclose.right, hclose.recent, hclose.member, hclose.joined, hclose.given, hclose.sent,
        hclose.typed, hclose.fresh⟩
    · exact nomatch hs
  | transmit side i k =>
    obtain ⟨huse, hs⟩ := Option.ite_none_right_eq_some.mp hs
    obtain ⟨c, hc, rfl⟩ := Option.map_eq_some_iff.mp hs
    exact h.same (same_transmit hc) ((h.right side i).transmit hc) fun _ => connected_of_usable huse
  | arrive side i k =>
    obtain ⟨huse, hs⟩ := Option.ite_none_right_eq_some.mp hs
    obtain ⟨c, hc, rfl⟩ := Option.map_eq_some_iff.mp hs
    exact h.same (same_arrive hc) ((h.right side i).arrive hc) fun _ => connected_of_usable huse
  | written side i =>
    obtain ⟨huse, hs⟩ := Option.ite_none_right_eq_some.mp hs
    obtain ⟨c, hc, rfl⟩ := Option.map_eq_some_iff.mp hs
    exact h.same (same_written hc) ((h.right side i).written hc) fun _ => connected_of_usable huse
  | writeError side i =>
    obtain ⟨c, hc, rfl⟩ := Option.map_eq_some_iff.mp hs
    have huse : .server = side → s.connected i = true := by
      rintro rfl
      by_contra hcon
      rw [(h.fresh i (by simpa using hcon)).1] at hc
      exact nomatch hc
    exact (h.same (same_fail hc) ((h.right side i).fail hc) huse).onError huse
  | readHeader side i =>
    obtain ⟨huse, hs⟩ := Option.ite_none_right_eq_some.mp hs
    obtain ⟨c, hc, rfl⟩ := Option.map_eq_some_iff.mp hs
    have hset := h.same (same_readHeader hc) ((h.right side i).readHeader hc)
      fun _ => connected_of_usable huse
    split
    · exact hset.onError fun _ => connected_of_usable huse
    · exact hset
  | readBody side i =>
    obtain ⟨huse, hs⟩ := Option.ite_none_right_eq_some.mp hs
    obtain ⟨⟨m, c⟩, hc, rfl⟩ := Option.map_eq_some_iff.mp hs
    have hright := (h.right side i).readBody hc
    obtain ⟨⟨m', r⟩, -, heq⟩ := Option.map_eq_some_iff.mp hc
    obtain ⟨rfl, rfl⟩ := Prod.mk.inj heq
    cases side with
    | server => exact h.deliver (connected_of_usable huse) hright rfl rfl rfl
    | client => exact h.setConn hright (List.prefix_refl _) rfl nofun nofun
  | readError side i =>
    obtain ⟨huse, hs⟩ := Option.ite_none_right_eq_some.mp hs
    split at hs
    · exact nomatch hs
    · obtain rfl := Option.some.inj hs
      have hset := h.same (same_close _) (h.right side i).close fun _ => connected_of_usable huse
      exact hset.onError fun _ => connected_of_usable huse

theorem inv_initial : Inv .initial where
  right _ _ := Conn.right_fresh
  recent := rfl
  member i := by simp [State.initial]
  joined _ := ⟨Nat.zero_le _, Nat.zero_le _⟩
  given _ h := nomatch h
  sent _ := rfl
  typed _ := rfl
  fresh _ _ := ⟨rfl, rfl⟩

theorem inv_of_reachable (h : system.Reachable s) : Inv s :=
  h.invariant (fun _ hs => hs ▸ inv_initial) fun _ _ _ _ hs ht => hs.next ht

/-! ### What the clients print -/

/-- The lines that the client has printed. -/
def State.printed (s : State) (i : ℕ) : List (List UInt8) :=
  (s.conn .client i).took.map Frame.body

/-- **All clients print the same messages in the same order**, from the last hundred before they
joined, and the messages of one client are its lines, in their order and without a gap. -/
theorem chat_prints (h : system.Reachable s) :
    (∀ i, s.sentBy i <+: (s.lines i).map Message.ofLine) ∧
      ∀ j, s.connected j = true → s.printed j <+: (s.given j).map Frame.body := by
  have hinv := inv_of_reachable h
  refine ⟨fun i => ?_, fun j hj => ?_⟩
  · rw [hinv.sent, ← hinv.typed]
    exact (took_isPrefix (hinv.right .server i) (hinv.right .client i).gave).trans
      (List.prefix_append ..)
  · rw [← hinv.given j hj]
    exact (took_isPrefix (hinv.right .client j) (hinv.right .server j).gave).map _

/-- A line goes from the client to the room. -/
def say (i : ℕ) (line : List UInt8) : List Label :=
  [.post i line, .handle i, .transmit .client i 2, .transmit .client i (line.length + 2),
    .written .client i, .arrive .server i 5, .readHeader .server i,
    .arrive .server i (line.length - 1), .readBody .server i]

/-- Two messages of two characters go to the client. -/
def hear (i : ℕ) : List Label :=
  [.transmit .server i 6, .written .server i, .transmit .server i 6, .written .server i,
    .arrive .client i 9, .readHeader .client i, .readBody .client i, .arrive .client i 3,
    .readHeader .client i, .readBody .client i]

/-- Two clients type a line each, and both read both of them. -/
def talk : List Label :=
  [.connect 0, .connect 1] ++ say 1 [104, 105] ++ say 0 [104, 111] ++ hear 0 ++ hear 1

theorem chat_prints_talk : ∃ s : State, s.printed 0 = [[104, 105], [104, 111]] ∧
    s.printed 1 = [[104, 105], [104, 111]] ∧
    (∀ i, s.sentBy i <+: (s.lines i).map Message.ofLine) ∧
    ∀ j, s.connected j = true → s.printed j <+: (s.given j).map Frame.body := by
  let s := (talk.foldlM State.next .initial).get (by decide +kernel)
  have hs : system.Reachable s := ⟨_, talk, rfl, System.run_ofStep (by rfl)⟩
  exact ⟨s, by decide +kernel, by decide +kernel, chat_prints hs⟩

/-- A label of a step that somebody has to make, in the end. -/
def Label.isDue : Label → Bool
  | handle _ | transmit _ _ _ | arrive _ _ _ | written _ _ | readHeader _ _ | readBody _ _ => true
  | connect _ | post _ _ | close _ | writeError _ _ | readError _ _ => false

/-- The steps that are due. -/
def due : System State Label := system.restrict fun _ l => l.isDue = true

/-- Nothing went wrong with the connection. -/
structure State.Sound (s : State) (i : ℕ) : Prop where
  member : i ∈ s.participants_
  opened : s.closed i = false
  reading : ∀ side, (s.conn side i).reader.reading ≠ .closed
  writing : ∀ side, (s.conn side i).writer.unsent = none → (s.conn side i).writer.write_msgs_ = []

theorem usable_of_sound (hinv : Inv s) (hi : s.Sound i) (side : Side) : s.usable side i = true := by
  have hcon := ((hinv.member i).mp hi.member).1
  cases side <;> simp [State.usable, hcon, hi.opened]

theorem next_of_stuck (h : due.Stuck s) {l : Label} (hl : l.isDue = true) : s.next l = none := by
  cases hs : s.next l with
  | none => rfl
  | some s' => exact absurd ⟨hs, hl⟩ (h l s')

/-- A writer that cannot go on has sent everything. -/
theorem queue_of_stuck (hstuck : due.Stuck s) (hinv : Inv s) (hi : s.Sound i) (side : Side) :
    (s.conn side i).writer.write_msgs_ = [] := by
  have huse := usable_of_sound hinv hi side
  cases hunsent : (s.conn side i).writer.unsent with
  | none => exact hi.writing side hunsent
  | some bytes =>
    cases bytes with
    | nil =>
      have hnone := next_of_stuck hstuck (l := .written side i) rfl
      rw [State.next, if_pos huse, Conn.written, Writer.written, hunsent] at hnone
      exact nomatch hnone
    | cons b bytes =>
      have hnone := next_of_stuck hstuck (l := .transmit side i 1) rfl
      rw [State.next, if_pos huse, Conn.transmit, Writer.transmit, hunsent] at hnone
      simp at hnone

/-- A reader that cannot go on has read everything. -/
theorem took_of_stuck (hstuck : due.Stuck s) (hinv : Inv s) (hi : s.Sound i) (side : Side) :
    (s.conn side i).took = (s.conn side.other i).gave := by
  have huse := usable_of_sound hinv hi side
  have hwire := (hinv.right side.other i).gave.wire_eq (queue_of_stuck hstuck hinv hi side.other)
  have hright := hinv.right side i
  have htaken : (s.conn side i).taken = (s.conn side.other i).writer.wire.length := by
    have hnone := next_of_stuck hstuck (l := .arrive side i 1) rfl
    rw [State.next, if_pos huse, Option.map_eq_none_iff, Conn.arrive] at hnone
    have hle := hright.taken_le
    split at hnone
    · cases hnone
    · omega
  have htook := hright.took
  rw [htaken, List.take_length, hwire] at htook
  have hheader := next_of_stuck hstuck (l := .readHeader side i) rfl
  have hbody := next_of_stuck hstuck (l := .readBody side i) rfl
  rw [State.next, if_pos huse, Option.map_eq_none_iff, Conn.readHeader,
    Option.map_eq_none_iff] at hheader
  rw [State.next, if_pos huse, Option.map_eq_none_iff, Conn.readBody,
    Option.map_eq_none_iff] at hbody
  exact htook.complete (hi.reading side) hheader hbody

/-- **Nothing is lost.**  Where no step is due any more, every line of a client whose connection is
sound has come to the room, and a client whose connection is sound has printed everything. -/
theorem chat_complete (h : system.Reachable s) (hstuck : due.Stuck s) (hi : s.Sound i) :
    s.sentBy i = (s.lines i).map Message.ofLine ∧ s.printed i = (s.given i).map Frame.body := by
  have hinv := inv_of_reachable h
  have hposted : s.posted i = [] := by
    have hnone := next_of_stuck hstuck (l := .handle i) rfl
    rw [State.next] at hnone
    split at hnone
    · exact nomatch hnone
    · assumption
  refine ⟨?_, ?_⟩
  · have htyped := hinv.typed i
    rw [hposted, List.append_nil] at htyped
    rw [hinv.sent, took_of_stuck hstuck hinv hi .server, ← htyped]
    rfl
  · rw [State.printed, took_of_stuck hstuck hinv hi .client,
      ← hinv.given i ((hinv.member i).mp hi.member).1]
    rfl

theorem chat_complete_talk : ∃ s : State, s.lines 0 = [[104, 111]] ∧ s.lines 1 = [[104, 105]] ∧
    ∀ i < 2, s.sentBy i = (s.lines i).map Message.ofLine ∧
      s.printed i = (s.given i).map Frame.body := by
  let s := (talk.foldlM State.next .initial).get (by decide +kernel)
  have hs : system.Reachable s := ⟨_, talk, rfl, System.run_ofStep (by rfl)⟩
  have hother : ∀ side n, s.usable side (n + 2) = false := fun side n => by cases side <;> rfl
  have harrive : ∀ side, ∀ i < 2, ∀ k,
      (s.conn side i).arrive (s.conn side.other i).writer.wire k = none := by
    intro side i hi k
    have htaken : (s.conn side i).taken = (s.conn side.other i).writer.wire.length := by
      interval_cases i <;> cases side <;> rfl
    rw [Conn.arrive, if_neg (by omega)]
  have hstuck : due.Stuck s := by
    rintro l t ⟨ht, hl⟩
    have hnone : s.next l = none := by
      cases l with
      | handle i => rcases i with _ | _ | i <;> rfl
      | arrive side i k =>
        rw [State.next]
        rcases Nat.lt_or_ge i 2 with hi | hi
        · rw [harrive side i hi, Option.map_none, ite_self]
        · obtain ⟨n, rfl⟩ := Nat.exists_eq_add_of_le' hi
          rw [hother, if_neg Bool.false_ne_true]
      | transmit side i k | written side i | readHeader side i | readBody side i =>
        rw [State.next]
        rcases i with _ | _ | n
        · cases side <;> rfl
        · cases side <;> rfl
        · rw [hother, if_neg Bool.false_ne_true]
      | connect | post | close | writeError | readError => exact nomatch hl
    exact nomatch hnone.symm.trans ht
  have hsound : ∀ i < 2, s.Sound i := by
    intro i hi
    interval_cases i
    all_goals
      exact ⟨by decide +kernel, by decide +kernel, fun side => by cases side <;> exact nofun,
        fun side => by cases side <;> exact fun _ => rfl⟩
  exact ⟨s, by decide +kernel, by decide +kernel,
    fun i hi => chat_complete hs hstuck (hsound i hi)⟩

end CppProgramming.Chat
