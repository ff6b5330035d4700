import CppProgramming.Lib.Mailbox
import CppProgramming.Lib.Transition
import Mathlib.Algebra.BigOperators.Group.Finset.Piecewise
import Mathlib.Order.Lattice

/-!
# Actors that pass tokens around a ring

An actor handles its messages one at a time, in the order in which they were sent to it; the
threads take turns in any other way.  `main` tells every member of a ring who is next, gives
each one a token, and waits until each token has come down to zero.
-/

namespace CppProgramming.Executors.TokenRing

open CppProgramming.Lib

variable {F σ : Type}

inductive Address
  | member (i : ℕ)
  | receiver
  deriving DecidableEq

inductive Message
  | address (next : Address)
  | int (token : ℤ)
  deriving DecidableEq

/-- `typeid(Message)` -/
inductive MessageId
  | address
  | int
  deriving DecidableEq

def Message.message_id : Message → MessageId
  | address _ => .address
  | int _ => .int

/-! ### The actor framework -/

/-- An actor whose handlers are member functions `F`, with the fields `σ` of its class. -/
structure Actor (F σ : Type) where
  handlers_ : List F
  fields : σ

/-- What the member functions of a class of actors do: what becomes of the actor, and what is
sent to whom.  `none` is undefined behaviour. -/
structure Class (F σ : Type) where
  message_id : F → MessageId
  function_ : F → Message → Address → Actor F σ → Option (Actor F σ × List (Address × Message))

def Actor.registerHandler (a : Actor F σ) (mf : F) : Actor F σ :=
  { a with handlers_ := a.handlers_ ++ [mf] }

/-- Only the first matching handler is removed. -/
def Actor.deregisterHandler [DecidableEq F] (a : Actor F σ) (mf : F) : Actor F σ :=
  { a with handlers_ := a.handlers_.erase mf }

/-- The loop of `call_handler`.  It goes by iterators that a change of `handlers_` makes invalid.
Behind one the loop increments and compares them once more, which is taken to end it where the
list has ended; to visit another handler through them is undefined. -/
def callHandlers [DecidableEq F] (c : Class F σ) (msg : Message) (sender : Address) :
    List F → Actor F σ → Option (Actor F σ × List (Address × Message))
  | [], a => some (a, [])
  | h :: hs, a =>
    if c.message_id h = msg.message_id then
      (c.function_ h msg sender a).bind fun r =>
        if r.1.handlers_ = a.handlers_ ∨ hs = [] then
          (callHandlers c msg sender hs r.1).map fun q => (q.1, r.2 ++ q.2)
        else none
    else callHandlers c msg sender hs a

def Actor.callHandler [DecidableEq F] (c : Class F σ) (msg : Message) (sender : Address)
    (a : Actor F σ) : Option (Actor F σ × List (Address × Message)) :=
  callHandlers c msg sender a.handlers_ a

/-! ### The members of the ring -/

inductive MemberFunction
  | init_handler
  | token_handler
  deriving DecidableEq

/-- They are not initialised when a member is made. -/
structure MemberFields where
  next_ : Option Address
  caller_ : Option Address

abbrev Member := Actor MemberFunction MemberFields

def Member.new : Member where
  handlers_ := [.init_handler]
  fields := ⟨none, none⟩

def Member.initHandler (next sender : Address) (a : Member) : Member :=
  let a' : Member := { a with fields := ⟨some next, some sender⟩ }
  (a'.registerHandler .token_handler).deregisterHandler .init_handler

/-- The message that is sent on, and to whom. -/
def Member.tokenHandler (token : ℤ) (a : Member) : Option (Address × Message) :=
  a.fields.caller_.bind fun caller =>
    if token > 0 then a.fields.next_.map fun next => (next, .int (token - 1))
    else some (caller, .int token)

def memberClass : Class MemberFunction MemberFields where
  message_id
    | .init_handler => .address
    | .token_handler => .int
  function_
    | .init_handler, .address next, sender, a => some (Member.initHandler next sender a, [])
    | .token_handler, .int token, _, a => (Member.tokenHandler token a).map fun msg => (a, [msg])
    | _, _, _, _ => none

/-! ### The receiver -/

inductive ReceiverFunction
  | message_handler
  deriving DecidableEq

/-- `waiting` says that `main` waits for `condition_`. -/
structure ReceiverFields where
  message_queue_ : List ℤ
  waiting : Bool

abbrev Receiver := Actor ReceiverFunction ReceiverFields

def Receiver.new : Receiver where
  handlers_ := [.message_handler]
  fields := ⟨[], false⟩

def Receiver.messageHandler (msg : ℤ) (a : Receiver) : Receiver :=
  { a with fields := ⟨a.fields.message_queue_ ++ [msg], false⟩ }

def receiverClass : Class ReceiverFunction ReceiverFields where
  message_id
    | .message_handler => .int
  function_
    | .message_handler, .int msg, _, a => some (Receiver.messageHandler msg a, [])
    | .message_handler, .address _, _, _ => none

/-- `wait` from the check of the queue on: a message, or none yet. -/
def Receiver.wait (a : Receiver) : Option ℤ × Receiver :=
  match a.fields.message_queue_ with
  | [] => (none, { a with fields := ⟨[], true⟩ })
  | msg :: queue => (some msg, { a with fields := ⟨queue, a.fields.waiting⟩ })

/-! ### The program -/

/-- Where `main` is: in one of its three loops, or behind them. -/
inductive Main
  | initialise (i next_i : ℕ)
  | tokens (i : ℕ)
  | waits (i : ℕ)
  | returned
  deriving DecidableEq

/-- `received` is what the calls of `wait` have returned. -/
structure State where
  main : Main
  members : ℕ → Member
  rcvr : Receiver
  mailbox : Mailboxes Address (Message × Address)
  received : List ℤ

inductive Label
  | main
  | handle (a : Address)
  | wake
  deriving DecidableEq

def Label.isWake : Label → Bool
  | wake => true
  | main | handle _ => false

/-- `send`, and `tail_send` with the sender as `from` -/
def post (sender : Address) (b : Mailboxes Address (Message × Address)) (dst : Address)
    (msg : Message) : Mailboxes Address (Message × Address) :=
  b.send dst (msg, sender)

def postAll (sender : Address) (sent : List (Address × Message))
    (b : Mailboxes Address (Message × Address)) : Mailboxes Address (Message × Address) :=
  sent.foldl (fun b p => post sender b p.1 p.2) b

def State.mainStep (num_actors : ℕ) (token_value : ℤ) (s : State) : Option State :=
  match s.main with
  | .initialise 0 _ => some { s with main := .tokens 0 }
  | .initialise (i + 1) next_i => some { s with
      main := .initialise i i
      mailbox := post .receiver s.mailbox (.member i) (.address (.member next_i)) }
  | .tokens i =>
    if i < num_actors then some { s with
      main := .tokens (i + 1)
      mailbox := post .receiver s.mailbox (.member i) (.int token_value) }
    else some { s with main := .waits 0 }
  | .waits i =>
    if i < num_actors then
      if s.rcvr.fields.waiting = true then none
      else match s.rcvr.wait with
        | (some msg, rcvr) => some { s with
            main := .waits (i + 1), rcvr := rcvr, received := s.received ++ [msg] }
        | (none, rcvr) => some { s with rcvr := rcvr }
    else some { s with main := .returned }
  | .returned => none

/-- An actor handles its oldest message.  Two actors share nothing but the mailboxes, and a handler
sends last, so that this is one step. -/
def State.handle (s : State) (a : Address) : Option State :=
  match s.mailbox a with
  | [] => none
  | (msg, sender) :: _ =>
    match a with
    | .member i => ((s.members i).callHandler memberClass msg sender).map fun r => { s with
        members := Function.update s.members i r.1
        mailbox := postAll a r.2 (s.mailbox.pop a) }
    | .receiver => (s.rcvr.callHandler receiverClass msg sender).map fun r => { s with
        rcvr := r.1
        mailbox := postAll a r.2 (s.mailbox.pop a) }

def State.next (num_actors : ℕ) (token_value : ℤ) (s : State) : Label → Option State
  | .main => s.mainStep num_actors token_value
  | .handle a => s.handle a
  | .wake =>
    if s.rcvr.fields.waiting = true then
      some { s with rcvr := { s.rcvr with fields := ⟨s.rcvr.fields.message_queue_, false⟩ } }
    else none

def State.initial (num_actors : ℕ) : State where
  main := .initialise num_actors 0
  members _ := .new
  rcvr := .new
  mailbox _ := []
  received := []

def system (num_actors : ℕ) (token_value : ℤ) : System State Label :=
  .ofStep (· = .initial num_actors) (State.next num_actors token_value)

/-- The same without spurious wake-ups. -/
def unaided (num_actors : ℕ) (token_value : ℤ) : System State Label :=
  (system num_actors token_value).restrict fun _ l => l ≠ .wake

/-- `const int token_value`, so that the tokens go `num_hops` times from one member to the next. -/
def tokenValue (num_hops num_actors : ℕ) : ℕ := (num_hops + num_actors - 1) / num_actors

variable {n i j : ℕ} {v x : ℤ} {s s' : State} {l : Label} {a : Address}

/-! ### What the handlers do -/

/-- A member that knows its place in the ring. -/
def Member.ready (next caller : Address) : Member where
  handlers_ := [.token_handler]
  fields := ⟨some next, some caller⟩

theorem callHandler_new (next sender : Address) :
    Member.new.callHandler memberClass (.address next) sender =
      some (Member.ready next sender, []) := rfl

theorem callHandler_ready (next caller sender : Address) (x : ℤ) :
    (Member.ready next caller).callHandler memberClass (.int x) sender =
      some (Member.ready next caller,
        [if x > 0 then (next, .int (x - 1)) else (caller, .int x)]) := by
  have htoken : Member.tokenHandler x (.ready next caller) =
      some (if x > 0 then (next, .int (x - 1)) else (caller, .int x)) := by
    simp only [Member.tokenHandler, Member.ready, Option.bind_some, Option.map_some]
    split <;> rfl
  simp only [Actor.callHandler, Member.ready, callHandlers, memberClass, Message.message_id,
    if_true]
  rw [← Member.ready, htoken]
  rfl

theorem callHandler_receiver (fields : ReceiverFields) (sender : Address) (x : ℤ) :
    (⟨[.message_handler], fields⟩ : Receiver).callHandler receiverClass (.int x) sender =
      some (⟨[.message_handler], ⟨fields.message_queue_ ++ [x], false⟩⟩, []) := rfl

/-! ### Invariant -/

/-- The members from here on have been told who is next. -/
def Main.told : Main → ℕ
  | initialise i _ => i
  | tokens _ | waits _ | returned => 0

/-- How many tokens have been given out. -/
def Main.given (n : ℕ) : Main → ℕ
  | initialise .. => 0
  | tokens i => i
  | waits _ | returned => n

/-- How many calls of `wait` have returned. -/
def Main.waited (n : ℕ) : Main → ℕ
  | initialise .. | tokens _ => 0
  | waits i => i
  | returned => n

def Main.Right (n : ℕ) : Main → Prop
  | initialise i next_i => i ≤ n ∧ next_i = i % n
  | tokens i | waits i => i ≤ n
  | returned => True

/-- All tokens end with the same value. -/
def Message.IsToken (v : ℤ) : Message → Prop
  | int x => min x 0 = min v 0
  | address _ => False

/-- A member that was told who is next, and its messages: tokens, and before them the message that
tells it, if it is not handled yet.  Once the member was given its token there is one. -/
inductive Stage (v : ℤ) (next : Address) (given : Prop) : Member → List (Message × Address) → Prop
  | told {tokens : List (Message × Address)} (htokens : ∀ p ∈ tokens, p.1.IsToken v)
      (hgiven : given → tokens ≠ []) :
      Stage v next given .new ((.address next, .receiver) :: tokens)
  | ready {tokens : List (Message × Address)} (htokens : ∀ p ∈ tokens, p.1.IsToken v) :
      Stage v next given (.ready next .receiver) tokens

/-- The members and the messages. -/
structure Ring (n : ℕ) (v : ℤ) (told given : ℕ) (members : ℕ → Member)
    (b : Mailboxes Address (Message × Address)) : Prop where
  fresh : ∀ i < told, members i = .new ∧ b (.member i) = []
  stage : ∀ i, told ≤ i → i < n →
    Stage v (.member ((i + 1) % n)) (i < given) (members i) (b (.member i))
  outside : ∀ i, n ≤ i → b (.member i) = []
  signals : ∀ p ∈ b .receiver, p.1 = .int (min v 0)

/-- The actors of the program. -/
def actors (n : ℕ) : Finset Address := insert .receiver ((Finset.range n).image .member)

@[simp] theorem mem_actors_member : .member i ∈ actors n ↔ i < n := by simp [actors]

@[simp] theorem mem_actors_receiver : .receiver ∈ actors n := by simp [actors]

/-- How many of the messages are tokens. -/
def tokenCount (_ : Address) : Message × Address → ℕ
  | (.int _, _) => 1
  | (.address _, _) => 0

structure Inv (n : ℕ) (v : ℤ) (s : State) : Prop where
  main : s.main.Right n
  ring : Ring n v s.main.told (s.main.given n) s.members s.mailbox
  handlers : s.rcvr.handlers_ = [.message_handler]
  queue : ∀ x ∈ s.rcvr.fields.message_queue_, x = min v 0
  received : s.received = List.replicate (s.main.waited n) (min v 0)
  asleep : s.rcvr.fields.waiting = true → s.rcvr.fields.message_queue_ = []
  count : s.mailbox.load (actors n) tokenCount + s.rcvr.fields.message_queue_.length +
    s.received.length = s.main.given n

/-- What a step can do where the invariant holds. -/
inductive Steps (n : ℕ) (v : ℤ) (s : State) : Label → State → Prop
  | tell {i : ℕ} (hmain : s.main = .initialise (i + 1) ((i + 1) % n)) (hi : i < n) :
      Steps n v s .main { s with
        main := .initialise i i
        mailbox := s.mailbox.send (.member i) (.address (.member ((i + 1) % n)), .receiver) }
  | told {j : ℕ} (hmain : s.main = .initialise 0 j) : Steps n v s .main { s with main := .tokens 0 }
  | give {i : ℕ} (hmain : s.main = .tokens i) (hi : i < n) :
      Steps n v s .main { s with
        main := .tokens (i + 1)
        mailbox := s.mailbox.send (.member i) (.int v, .receiver) }
  | given {i : ℕ} (hmain : s.main = .tokens i) (hi : i = n) :
      Steps n v s .main { s with main := .waits 0 }
  | take {i : ℕ} {x : ℤ} {queue : List ℤ} (hmain : s.main = .waits i) (hi : i < n)
      (hawake : s.rcvr.fields.waiting = false)
      (hqueue : s.rcvr.fields.message_queue_ = x :: queue) :
      Steps n v s .main { s with
        main := .waits (i + 1)
        rcvr := { s.rcvr with fields := ⟨queue, false⟩ }
        received := s.received ++ [x] }
  | sleep {i : ℕ} (hmain : s.main = .waits i) (hi : i < n) (hawake : s.rcvr.fields.waiting = false)
      (hqueue : s.rcvr.fields.message_queue_ = []) :
      Steps n v s .main { s with
        main := .waits i
        rcvr := { s.rcvr with fields := ⟨[], true⟩ } }
  | return {i : ℕ} (hmain : s.main = .waits i) (hi : i = n) :
      Steps n v s .main { s with main := .returned }
  | init {i : ℕ} {next : Address} {rest : List (Message × Address)} (htold : s.main.told ≤ i)
      (hi : i < n) (hmember : s.members i = .new)
      (hmailbox : s.mailbox (.member i) = (.address next, .receiver) :: rest) :
      Steps n v s (.handle (.member i)) { s with
        members := Function.update s.members i (.ready next .receiver)
        mailbox := s.mailbox.pop (.member i) }
  | hop {i : ℕ} {x : ℤ} {sender : Address} {rest : List (Message × Address)} (hi : i < n)
      (hmember : s.members i = .ready (.member ((i + 1) % n)) .receiver) (hx : x > 0)
      (hmailbox : s.mailbox (.member i) = (.int x, sender) :: rest) :
      Steps n v s (.handle (.member i)) { s with
        mailbox := (s.mailbox.pop (.member i)).send (.member ((i + 1) % n))
          (.int (x - 1), .member i) }
  | signal {i : ℕ} {x : ℤ} {sender : Address} {rest : List (Message × Address)} (hi : i < n)
      (hmember : s.members i = .ready (.member ((i + 1) % n)) .receiver) (hx : ¬ x > 0)
      (hmailbox : s.mailbox (.member i) = (.int x, sender) :: rest) :
      Steps n v s (.handle (.member i)) { s with
        mailbox := (s.mailbox.pop (.member i)).send .receiver (.int x, .member i) }
  | receive {x : ℤ} {sender : Address} {rest : List (Message × Address)}
      (hmailbox : s.mailbox .receiver = (.int x, sender) :: rest) :
      Steps n v s (.handle .receiver) { s with
        rcvr := { s.rcvr with fields := ⟨s.rcvr.fields.message_queue_ ++ [x], false⟩ }
        mailbox := s.mailbox.pop .receiver }
  | wake (hwait : s.rcvr.fields.waiting = true) :
      Steps n v s .wake { s with
        rcvr := { s.rcvr with fields := ⟨s.rcvr.fields.message_queue_, false⟩ } }

theorem Message.IsToken.exists_int {m : Message} (h : m.IsToken v) :
    ∃ x, m = .int x ∧ min x 0 = min v 0 := by
  cases m with
  | address next => exact h.elim
  | int x => exact ⟨x, rfl, h⟩

theorem handle_receiver {sender : Address} {rest : List (Message × Address)}
    (hhandlers : s.rcvr.handlers_ = [.message_handler])
    (hmailbox : s.mailbox .receiver = (.int x, sender) :: rest) :
    s.handle .receiver = some { s with
      rcvr := { s.rcvr with fields := ⟨s.rcvr.fields.message_queue_ ++ [x], false⟩ }
      mailbox := s.mailbox.pop .receiver } := by
  have hrcvr : s.rcvr = ⟨[.message_handler], s.rcvr.fields⟩ := by rw [← hhandlers]
  have hcall := callHandler_receiver s.rcvr.fields sender x
  rw [← hrcvr, ← hhandlers] at hcall
  simp only [State.handle, hmailbox, hcall, Option.map_some, postAll, List.foldl_nil]

theorem handle_new {next : Address} {rest : List (Message × Address)}
    (hmember : s.members i = .new)
    (hmailbox : s.mailbox (.member i) = (.address next, .receiver) :: rest) :
    s.handle (.member i) = some { s with
      members := Function.update s.members i (.ready next .receiver)
      mailbox := s.mailbox.pop (.member i) } := by
  simp only [State.handle, hmailbox, hmember, callHandler_new, Option.map_some, postAll,
    List.foldl_nil]

theorem handle_ready {next sender : Address} {rest : List (Message × Address)}
    (hmember : s.members i = .ready next .receiver)
    (hmailbox : s.mailbox (.member i) = (.int x, sender) :: rest) :
    s.handle (.member i) = some { s with
      mailbox := (s.mailbox.pop (.member i)).send (if x > 0 then next else .receiver)
        (.int (if x > 0 then x - 1 else x), .member i) } := by
  simp only [State.handle, hmailbox, hmember, callHandler_ready, Option.map_some, postAll,
    List.foldl_cons, List.foldl_nil, post]
  rw [← hmember, Function.update_eq_self]
  split <;> rfl

/-- **No handler is undefined**, and none is missing. -/
theorem Inv.exists_handle (h : Inv n v s) (hne : s.mailbox a ≠ []) :
    ∃ s', s.handle a = some s' ∧ Steps n v s (.handle a) s' := by
  obtain ⟨⟨msg, sender⟩, rest, hmailbox⟩ := List.exists_cons_of_ne_nil hne
  cases a with
  | receiver =>
    obtain rfl : msg = .int _ := h.ring.signals _ (hmailbox ▸ List.mem_cons_self)
    exact ⟨_, handle_receiver h.handlers hmailbox, .receive hmailbox⟩
  | member i =>
    have hi : i < n := by
      by_contra hge
      exact hne (h.ring.outside i (Nat.not_lt.mp hge))
    have htold : s.main.told ≤ i := by
      by_contra hlt
      exact hne (h.ring.fresh i (Nat.not_le.mp hlt)).2
    have hstage := h.ring.stage i htold hi
    rw [hmailbox] at hstage
    generalize hmember : s.members i = m at hstage
    cases hstage with
    | told htokens hgiven =>
      exact ⟨_, handle_new hmember hmailbox, .init htold hi hmember hmailbox⟩
    | ready htokens =>
      obtain ⟨x, hx, -⟩ := (htokens _ List.mem_cons_self).exists_int
      obtain rfl : msg = .int x := hx
      refine ⟨_, handle_ready hmember hmailbox, ?_⟩
      by_cases hx : x > 0
      · simp only [if_pos hx]
        exact .hop hi hmember hx hmailbox
      · simp only [if_neg hx]
        exact .signal hi hmember hx hmailbox

theorem Inv.steps_of_main (h : Inv n v s) (hs : s.mainStep n v = some s') :
    Steps n v s .main s' := by
  have hright := h.main
  cases hmain : s.main with
  | initialise i next_i =>
    rw [hmain] at hright
    obtain ⟨hi, rfl⟩ := hright
    cases i with
    | zero =>
      simp only [State.mainStep, hmain] at hs
      obtain rfl := Option.some.inj hs
      exact .told hmain
    | succ i =>
      simp only [State.mainStep, hmain] at hs
      obtain rfl := Option.some.inj hs
      exact .tell hmain hi
  | tokens i =>
    rw [hmain] at hright
    simp only [State.mainStep, hmain] at hs
    split at hs
    · rename_i hi
      obtain rfl := Option.some.inj hs
      exact .give hmain hi
    · rename_i hi
      obtain rfl := Option.some.inj hs
      exact .given hmain (Nat.le_antisymm hright (Nat.not_lt.mp hi))
  | waits i =>
    rw [hmain] at hright
    simp only [State.mainStep, hmain] at hs
    split at hs
    · rename_i hi
      split at hs
      · cases hs
      · rename_i hawake
        have hawake := Bool.eq_false_iff.mpr hawake
        cases hqueue : s.rcvr.fields.message_queue_ with
        | nil =>
          simp only [Receiver.wait, hqueue] at hs
          obtain rfl := Option.some.inj hs
          exact .sleep hmain hi hawake hqueue
        | cons x queue =>
          simp only [Receiver.wait, hqueue, hawake] at hs
          obtain rfl := Option.some.inj hs
          exact .take hmain hi hawake hqueue
    · rename_i hi
      obtain rfl := Option.some.inj hs
      exact .return hmain (Nat.le_antisymm hright (Nat.not_lt.mp hi))
  | returned =>
    simp only [State.mainStep, hmain] at hs
    cases hs

theorem Inv.steps_of_next (h : Inv n v s) (hs : s.next n v l = some s') : Steps n v s l s' := by
  cases l with
  | main => exact h.steps_of_main hs
  | handle a =>
    have hs : s.handle a = some s' := hs
    have hne : s.mailbox a ≠ [] := fun hnil => by simp [State.handle, hnil] at hs
    obtain ⟨t, ht, hsteps⟩ := h.exists_handle hne
    obtain rfl := Option.some.inj (ht.symm.trans hs)
    exact hsteps
  | wake =>
    simp only [State.next] at hs
    split at hs
    · rename_i hwait
      obtain rfl := Option.some.inj hs
      exact .wake hwait
    · cases hs

/-! ### Invariant is kept -/

section Ring

variable {told given : ℕ} {members : ℕ → Member} {b : Mailboxes Address (Message × Address)}
  {m : Message} {sender : Address} {rest : List (Message × Address)}

theorem member_ne (h : i ≠ j) : Address.member i ≠ .member j :=
  fun heq => h (Address.member.inj heq)

theorem member_ne_receiver (i : ℕ) : Address.member i ≠ .receiver := nofun

theorem Stage.send {next : Address} {owed owed' : Prop} {member : Member}
    {l : List (Message × Address)} (h : Stage v next owed member l) (hm : m.IsToken v) :
    Stage v next owed' member (l ++ [(m, sender)]) := by
  have happend {tokens : List (Message × Address)} (htokens : ∀ p ∈ tokens, p.1.IsToken v) :
      ∀ p ∈ tokens ++ [(m, sender)], p.1.IsToken v := fun p hp =>
    (List.mem_append.mp hp).elim (htokens p) fun hp => List.mem_singleton.mp hp ▸ hm
  cases h with
  | told htokens _ => exact .told (happend htokens) fun _ => List.concat_ne_nil _ _
  | ready htokens => exact .ready (happend htokens)

/-- `main` tells member `i` who is next. -/
theorem Ring.tell (h : Ring n v (i + 1) 0 members b) (hi : i < n) :
    Ring n v i 0 members
      (b.send (.member i) (.address (.member ((i + 1) % n)), .receiver)) where
  fresh k hk := by
    rw [Mailboxes.send_of_ne (member_ne (Nat.ne_of_lt hk))]
    exact h.fresh k (Nat.lt_succ_of_lt hk)
  stage k htold hk := by
    by_cases hki : k = i
    · obtain rfl := hki
      obtain ⟨hmember, hmailbox⟩ := h.fresh k (Nat.lt_succ_self k)
      rw [Mailboxes.send_self, hmailbox, hmember, List.nil_append]
      exact .told (fun p hp => absurd hp List.not_mem_nil) fun hlt => absurd hlt (Nat.not_lt_zero _)
    · rw [Mailboxes.send_of_ne (member_ne hki)]
      exact h.stage k (by omega) hk
  outside k hk := by
    rw [Mailboxes.send_of_ne (member_ne (by omega))]
    exact h.outside k hk
  signals := by
    rw [Mailboxes.send_of_ne (member_ne_receiver i).symm]
    exact h.signals

/-- A token goes to member `k`, perhaps its own. -/
theorem Ring.send (h : Ring n v 0 given members b) {given' k : ℕ} (hk : k < n) (hm : m.IsToken v)
    (hgiven : ∀ i, i ≠ k → (i < given' ↔ i < given)) :
    Ring n v 0 given' members (b.send (.member k) (m, sender)) where
  fresh i hi := absurd hi (Nat.not_lt_zero i)
  stage i htold hi := by
    have hstage := h.stage i htold hi
    by_cases hik : i = k
    · obtain rfl := hik
      rw [Mailboxes.send_self]
      exact hstage.send hm
    · rwa [Mailboxes.send_of_ne (member_ne hik), propext (hgiven i hik)]
  outside i hi := by
    rw [Mailboxes.send_of_ne (member_ne (by omega))]
    exact h.outside i hi
  signals := by
    rw [Mailboxes.send_of_ne (member_ne_receiver k).symm]
    exact h.signals

/-- A token is signalled. -/
theorem Ring.signal (h : Ring n v told given members b) :
    Ring n v told given members (b.send .receiver (.int (min v 0), sender)) where
  fresh i hi := by
    rw [Mailboxes.send_of_ne (member_ne_receiver i)]
    exact h.fresh i hi
  stage i htold hi := by
    rw [Mailboxes.send_of_ne (member_ne_receiver i)]
    exact h.stage i htold hi
  outside i hi := by
    rw [Mailboxes.send_of_ne (member_ne_receiver i)]
    exact h.outside i hi
  signals p hp := by
    rw [Mailboxes.send_self] at hp
    exact (List.mem_append.mp hp).elim (h.signals p) fun hp => by rw [List.mem_singleton.mp hp]

theorem Ring.receive (h : Ring n v told given members b) :
    Ring n v told given members (b.pop .receiver) where
  fresh i hi := by
    rw [Mailboxes.pop_of_ne (member_ne_receiver i)]
    exact h.fresh i hi
  stage i htold hi := by
    rw [Mailboxes.pop_of_ne (member_ne_receiver i)]
    exact h.stage i htold hi
  outside i hi := by
    rw [Mailboxes.pop_of_ne (member_ne_receiver i)]
    exact h.outside i hi
  signals p hp := by
    rw [Mailboxes.pop_self] at hp
    exact h.signals p (List.mem_of_mem_tail hp)

/-- Member `i` handles its oldest message, and is `member` from then on. -/
theorem Ring.pop (h : Ring n v told given members b) (htold : told ≤ i) (hi : i < n)
    {member : Member} (hstage : Stage v (.member ((i + 1) % n)) (i < given) member
      (b (.member i)).tail) :
    Ring n v told given (Function.update members i member) (b.pop (.member i)) where
  fresh k hk := by
    have hki : k ≠ i := by omega
    rw [Mailboxes.pop_of_ne (member_ne hki), Function.update_of_ne hki]
    exact h.fresh k hk
  stage k hk hkn := by
    by_cases hki : k = i
    · obtain rfl := hki
      rwa [Mailboxes.pop_self, Function.update_self]
    · rw [Mailboxes.pop_of_ne (member_ne hki), Function.update_of_ne hki]
      exact h.stage k hk hkn
  outside k hk := by
    rw [Mailboxes.pop_of_ne (member_ne (by omega))]
    exact h.outside k hk
  signals := by
    rw [Mailboxes.pop_of_ne (member_ne_receiver i).symm]
    exact h.signals

theorem Ring.init (h : Ring n v told given members b) (htold : told ≤ i) (hi : i < n)
    (hmember : members i = .new) {next : Address}
    (hmailbox : b (.member i) = (.address next, .receiver) :: rest) :
    Ring n v told given (Function.update members i (.ready next .receiver))
      (b.pop (.member i)) := by
  refine h.pop htold hi ?_
  have hstage := h.stage i htold hi
  rw [hmember, hmailbox] at hstage
  rw [hmailbox, List.tail_cons]
  cases hstage with
  | told htokens => exact .ready htokens

/-- A member that knows its place takes a token. -/
theorem Ring.take (h : Ring n v told given members b) (htold : told ≤ i) (hi : i < n)
    (hmember : members i = .ready (.member ((i + 1) % n)) .receiver)
    (hmailbox : b (.member i) = (m, sender) :: rest) :
    m.IsToken v ∧ Ring n v told given members (b.pop (.member i)) := by
  have hstage := h.stage i htold hi
  rw [hmember, hmailbox] at hstage
  cases hstage with
  | ready htokens =>
    refine ⟨htokens _ List.mem_cons_self, ?_⟩
    have hrest : Stage v (.member ((i + 1) % n)) (i < given) (members i) (b (.member i)).tail := by
      rw [hmember, hmailbox, List.tail_cons]
      exact .ready fun p hp => htokens p (List.mem_cons_of_mem _ hp)
    have hpop := h.pop htold hi hrest
    rwa [Function.update_eq_self] at hpop

end Ring

theorem inv_initial (n : ℕ) (v : ℤ) : Inv n v (.initial n) where
  main := ⟨Nat.le_refl n, (Nat.mod_self n).symm⟩
  ring :=
    { fresh := fun _ _ => ⟨rfl, rfl⟩
      stage := fun _ htold hi => absurd htold (Nat.not_le.mpr hi)
      outside := fun _ _ => rfl
      signals := fun _ hp => absurd hp List.not_mem_nil }
  handlers := rfl
  queue _ hx := absurd hx List.not_mem_nil
  received := rfl
  asleep _ := rfl
  count := by
    have hload : (State.initial n).mailbox.load (actors n) tokenCount = 0 :=
      Mailboxes.load_eq_zero fun _ _ => rfl
    rw [hload]
    rfl

theorem isToken_self (v : ℤ) : (Message.int v).IsToken v := rfl

/-- Tokens are there only when all members were told who is next. -/
theorem Inv.told_eq_zero (h : Inv n v s) (ha : a ∈ actors n) {sender : Address}
    {rest : List (Message × Address)} (hmailbox : s.mailbox a = (.int x, sender) :: rest) :
    s.main.told = 0 := by
  have hle := Mailboxes.le_load (w := tokenCount) ha (hmailbox ▸ List.mem_cons_self)
  have hcount := h.count
  cases hmain : s.main with
  | initialise k next_i =>
    rw [hmain, Main.given] at hcount
    rw [tokenCount] at hle
    omega
  | tokens | waits | returned => rfl

theorem Steps.inv (ht : Steps n v s l s') (h : Inv n v s) : Inv n v s' := by
  have htold {i : ℕ} {x : ℤ} {sender : Address} {rest : List (Message × Address)} (hi : i < n)
      (hmailbox : s.mailbox (.member i) = (.int x, sender) :: rest) : s.main.told = 0 :=
    h.told_eq_zero (mem_actors_member.mpr hi) hmailbox
  obtain ⟨hmain, hring, hhandlers, hqueue, hreceived, hasleep, hcount⟩ := h
  cases ht with
  | @tell i hm hi =>
    rw [hm] at hring hreceived hcount
    refine ⟨⟨hi.le, (Nat.mod_eq_of_lt hi).symm⟩, hring.tell hi, hhandlers, hqueue, hreceived,
      hasleep, ?_⟩
    dsimp only
    rw [Mailboxes.load_send (mem_actors_member.mpr hi)]
    exact hcount
  | told hm =>
    rw [hm] at hring hreceived hcount
    exact ⟨Nat.zero_le n, hring, hhandlers, hqueue, hreceived, hasleep, hcount⟩
  | @give i hm hi =>
    rw [hm] at hring hreceived hcount
    refine ⟨hi, hring.send hi (isToken_self v) fun k hk => ?_, hhandlers, hqueue, hreceived,
      hasleep, ?_⟩
    · rw [Main.given, Main.given]
      omega
    · dsimp only
      rw [Mailboxes.load_send (mem_actors_member.mpr hi), tokenCount]
      rw [Main.given] at hcount ⊢
      omega
  | given hm hi =>
    rw [hm, hi] at hring hreceived hcount
    exact ⟨Nat.zero_le n, hring, hhandlers, hqueue, hreceived, hasleep, hcount⟩
  | @take i x queue hm hi hawake hx =>
    rw [hm] at hring hreceived hcount
    rw [hx] at hqueue hcount
    refine ⟨hi, hring, hhandlers, fun y hy => hqueue y (List.mem_cons_of_mem x hy), ?_,
      nofun, ?_⟩
    · dsimp only
      rw [hreceived, hqueue x List.mem_cons_self]
      exact List.replicate_succ'.symm
    · rw [List.length_cons] at hcount
      dsimp only
      rw [List.length_append, List.length_singleton]
      rw [Main.given] at hcount ⊢
      omega
  | @sleep i hm hi hawake hnil =>
    rw [hm] at hmain hring hreceived hcount
    rw [hnil] at hcount
    exact ⟨hmain, hring, hhandlers, fun x hx => absurd hx List.not_mem_nil, hreceived,
      fun _ => rfl, hcount⟩
  | «return» hm hi =>
    rw [hm] at hring hreceived hcount
    rw [hi] at hreceived
    exact ⟨trivial, hring, hhandlers, hqueue, hreceived, hasleep, hcount⟩
  | @init i next rest hi' hi hmember hmailbox =>
    refine ⟨hmain, hring.init hi' hi hmember hmailbox, hhandlers, hqueue, hreceived, hasleep, ?_⟩
    have hload := Mailboxes.load_pop (w := tokenCount) (mem_actors_member.mpr hi) hmailbox
    rw [tokenCount, Nat.add_zero] at hload
    dsimp only
    rw [hload]
    exact hcount
  | @hop i x sender rest hi hmember hx hmailbox =>
    have hzero := htold hi hmailbox
    rw [hzero] at hring
    obtain ⟨htoken, hpop⟩ := hring.take (Nat.zero_le i) hi hmember hmailbox
    have hnext : (i + 1) % n < n := Nat.mod_lt _ (by omega)
    have htoken' : (Message.int (x - 1)).IsToken v := by
      simp only [Message.IsToken] at htoken ⊢
      omega
    refine ⟨hmain, ?_, hhandlers, hqueue, hreceived, hasleep, ?_⟩
    · dsimp only
      rw [hzero]
      exact hpop.send hnext htoken' fun _ _ => Iff.rfl
    · have hload := Mailboxes.load_pop (w := tokenCount) (mem_actors_member.mpr hi) hmailbox
      dsimp only
      rw [Mailboxes.load_send (mem_actors_member.mpr hnext)]
      rw [tokenCount] at hload ⊢
      rw [hload]
      exact hcount
  | @signal i x sender rest hi hmember hx hmailbox =>
    have hzero := htold hi hmailbox
    obtain ⟨htoken, hpop⟩ := hring.take (by omega) hi hmember hmailbox
    have hvalue : x = min v 0 := by
      simp only [Message.IsToken] at htoken
      omega
    refine ⟨hmain, hvalue ▸ hpop.signal, hhandlers, hqueue, hreceived, hasleep, ?_⟩
    have hload := Mailboxes.load_pop (w := tokenCount) (mem_actors_member.mpr hi) hmailbox
    dsimp only
    rw [Mailboxes.load_send mem_actors_receiver]
    rw [tokenCount] at hload ⊢
    rw [hload]
    exact hcount
  | @receive x sender rest hmailbox =>
    have hvalue : x = min v 0 :=
      Message.int.inj (hring.signals _ (hmailbox ▸ List.mem_cons_self))
    refine ⟨hmain, hring.receive, hhandlers, fun y hy => ?_, hreceived, nofun, ?_⟩
    · rcases List.mem_append.mp hy with hold | hnew
      · exact hqueue y hold
      · rw [List.mem_singleton.mp hnew, hvalue]
    · have hload := Mailboxes.load_pop (w := tokenCount) (mem_actors_receiver (n := n)) hmailbox
      rw [tokenCount] at hload
      dsimp only
      rw [List.length_append, List.length_singleton]
      omega
  | wake hwait => exact ⟨hmain, hring, hhandlers, hqueue, hreceived, nofun, hcount⟩

theorem inv_of_reachable (h : (system n v).Reachable s) : Inv n v s :=
  h.invariant (fun _ hs => hs ▸ inv_initial n v) fun _ _ _ _ hs ht => (hs.steps_of_next ht).inv hs

/-! ### The end -/

theorem Message.IsToken.count {p : Message × Address} (h : p.1.IsToken v) (a : Address) :
    tokenCount a p = 1 := by
  obtain ⟨msg, sender⟩ := p
  obtain ⟨x, rfl, -⟩ := h.exists_int
  rfl

/-- Without tokens there are no messages, when all tokens were given out. -/
theorem Inv.mailbox_eq_nil (h : Inv n v s) (htold : s.main.told = 0) (hgiven : s.main.given n = n)
    (hload : s.mailbox.load (actors n) tokenCount = 0) (a : Address) : s.mailbox a = [] := by
  have hnone {p : Message × Address} (ha : a ∈ actors n) (hp : p ∈ s.mailbox a) :
      ¬ p.1.IsToken v := fun htoken => by
    have hle := Mailboxes.le_load (w := tokenCount) ha hp
    rw [htoken.count, hload] at hle
    exact Nat.not_succ_le_zero 0 hle
  have hnil {tokens : List (Message × Address)} (ha : a ∈ actors n)
      (htokens : ∀ p ∈ tokens, p.1.IsToken v) (hsub : ∀ p ∈ tokens, p ∈ s.mailbox a) :
      tokens = [] :=
    List.eq_nil_iff_forall_not_mem.mpr fun p hp => hnone ha (hsub p hp) (htokens p hp)
  cases a with
  | receiver =>
    refine hnil mem_actors_receiver (fun p hp => ?_) fun p hp => hp
    rw [h.ring.signals p hp, Message.IsToken]
    omega
  | member i =>
    by_cases hi : i < n
    · have hstage := h.ring.stage i (by omega) hi
      rw [hgiven] at hstage
      generalize s.members i = m at hstage
      generalize hmailbox : s.mailbox (.member i) = l at hstage hnil
      cases hstage with
      | told htokens hne =>
        exact absurd (hnil (mem_actors_member.mpr hi) htokens fun p hp =>
          List.mem_cons_of_mem _ hp) (hne hi)
      | ready htokens => exact hnil (mem_actors_member.mpr hi) htokens fun p hp => hp
    · exact h.ring.outside i (Nat.not_lt.mp hi)

theorem Inv.returned (h : Inv n v s) (hmain : s.main = .returned) :
    s.received = List.replicate n (min v 0) ∧ ∀ a, s.mailbox a = [] := by
  have hreceived := h.received
  have hcount := h.count
  rw [hmain] at hreceived hcount
  rw [hreceived, List.length_replicate] at hcount
  simp only [Main.waited, Main.given] at hreceived hcount
  refine ⟨hreceived, h.mailbox_eq_nil ?_ ?_ (by omega)⟩ <;> rw [hmain] <;> rfl

/-- The steps that a message stands for. -/
def work : Address → Message × Address → ℕ
  | .receiver, _ => 2
  | .member _, (.int x, _) => x.toNat + 3
  | .member _, (.address _, _) => 1

def Main.work (n : ℕ) (v : ℤ) : Main → ℕ
  | initialise i _ => 2 * i + 1 + (n * (v.toNat + 4) + 1 + (n + 1))
  | tokens i => (n - i) * (v.toNat + 4) + 1 + (n + 1)
  | waits i => n - i + 1
  | returned => 0

def State.work (n : ℕ) (v : ℤ) (s : State) : ℕ :=
  s.main.work n v + s.mailbox.load (actors n) TokenRing.work +
    (if s.rcvr.fields.waiting = true then 0 else 1)

theorem Steps.work (ht : Steps n v s l s') :
    if l.isWake = true then s'.work n v ≤ s.work n v + 1 else s'.work n v < s.work n v := by
  cases ht with
  | @tell i hm hi =>
    simp only [State.work, hm, Main.work, Mailboxes.load_send (mem_actors_member.mpr hi),
      TokenRing.work, Label.isWake, Bool.false_eq_true, if_false]
    omega
  | told hm =>
    simp only [State.work, hm, Main.work, Label.isWake, Bool.false_eq_true, if_false, Nat.sub_zero]
    omega
  | @give i hm hi =>
    have hmul : (n - i) * (v.toNat + 4) = (n - (i + 1)) * (v.toNat + 4) + (v.toNat + 4) := by
      rw [← Nat.succ_mul]
      congr 1
      omega
    simp only [State.work, hm, Main.work, Mailboxes.load_send (mem_actors_member.mpr hi),
      TokenRing.work, Label.isWake, Bool.false_eq_true, if_false, hmul]
    omega
  | given hm hi =>
    simp only [State.work, hm, Main.work, Label.isWake, Bool.false_eq_true, if_false, hi,
      Nat.sub_self]
    omega
  | take hm hi hawake hqueue =>
    simp only [State.work, hm, Main.work, Label.isWake, Bool.false_eq_true, if_false, hawake]
    omega
  | sleep hm hi hawake hqueue =>
    simp only [State.work, hm, Main.work, Label.isWake, Bool.false_eq_true, if_false, hawake,
      if_true]
    omega
  | «return» hm hi =>
    simp only [State.work, hm, Main.work, Label.isWake, Bool.false_eq_true, if_false]
    omega
  | init htold hi hmember hmailbox =>
    have hload := Mailboxes.load_pop (w := TokenRing.work) (mem_actors_member.mpr hi) hmailbox
    simp only [State.work, Label.isWake, Bool.false_eq_true, if_false]
    simp only [TokenRing.work] at hload
    omega
  | @hop i x sender rest hi hmember hx hmailbox =>
    have hnext : (i + 1) % n < n := Nat.mod_lt _ (by omega)
    have hload := Mailboxes.load_pop (w := TokenRing.work) (mem_actors_member.mpr hi) hmailbox
    simp only [State.work, Label.isWake, Bool.false_eq_true, if_false,
      Mailboxes.load_send (mem_actors_member.mpr hnext)]
    simp only [TokenRing.work] at hload ⊢
    omega
  | signal hi hmember hx hmailbox =>
    have hload := Mailboxes.load_pop (w := TokenRing.work) (mem_actors_member.mpr hi) hmailbox
    simp only [State.work, Label.isWake, Bool.false_eq_true, if_false,
      Mailboxes.load_send mem_actors_receiver]
    simp only [TokenRing.work] at hload ⊢
    omega
  | receive hmailbox =>
    have hload := Mailboxes.load_pop (w := TokenRing.work) (mem_actors_receiver (n := n)) hmailbox
    simp only [State.work, Label.isWake, Bool.false_eq_true, if_false]
    simp only [TokenRing.work] at hload
    split <;> omega
  | wake hwait =>
    simp only [State.work, Label.isWake, if_true, hwait, Bool.false_eq_true, if_false]
    omega

theorem length_le_of_run {ls : List Label} (h : (system n v).Run (.initial n) ls s) :
    ls.length ≤ (State.initial n).work n v + 2 * ls.countP Label.isWake := by
  have hbound := (h.length_le (P := Inv n v) (State.work n v) Label.isWake
    (fun _ _ _ hs ht => have hsteps := hs.steps_of_next ht; ⟨hsteps.inv hs, hsteps.work⟩)
    (inv_initial n v)).2
  omega

/-- How often member `j` will handle a token that is at member `i` and has `x` hops left. -/
def visits (n j : ℕ) : ℕ → ℕ → ℕ
  | i, 0 => if i = j then 1 else 0
  | i, x + 1 => (if i = j then 1 else 0) + visits n j ((i + 1) % n) x

/-- How many messages member `j` will handle because of this one. -/
def due (n j : ℕ) : Address → Message × Address → ℕ
  | .receiver, _ => 0
  | .member i, (.int x, _) => visits n j i x.toNat
  | .member i, (.address _, _) => if i = j then 1 else 0

/-- How many messages member `j` will handle because of what `main` has sent. -/
def Main.due (n j : ℕ) (v : ℤ) : Main → ℕ
  | initialise i _ => if i ≤ j then 1 else 0
  | tokens i => 1 + ∑ k ∈ Finset.range i, visits n j k v.toNat
  | waits _ | returned => 1 + ∑ k ∈ Finset.range n, visits n j k v.toNat

/-- What is due comes from `main`, and is handled in time. -/
theorem Steps.due (ht : Steps n v s l s') (j : ℕ) :
    (if l = .handle (.member j) then 1 else 0) + s'.mailbox.load (actors n) (TokenRing.due n j) +
      s.main.due n j v = s.mailbox.load (actors n) (TokenRing.due n j) + s'.main.due n j v := by
  cases ht with
  | @tell i hm hi =>
    simp only [hm, Main.due, Mailboxes.load_send (mem_actors_member.mpr hi), TokenRing.due,
      reduceCtorEq, if_false]
    split <;> split <;> split <;> omega
  | told hm => simp [hm, Main.due]
  | @give i hm hi =>
    simp only [hm, Main.due, Finset.sum_range_succ,
      Mailboxes.load_send (mem_actors_member.mpr hi), TokenRing.due, reduceCtorEq, if_false]
    omega
  | given hm hi => simp [hm, hi, Main.due]
  | take hm hi hawake hqueue => simp [hm, Main.due]
  | sleep hm hi hawake hqueue => simp [hm, Main.due]
  | «return» hm hi => simp [hm, Main.due]
  | @init i next rest htold hi hmember hmailbox =>
    have hload := Mailboxes.load_pop (w := TokenRing.due n j) (mem_actors_member.mpr hi) hmailbox
    simp only [TokenRing.due] at hload
    simp only [Label.handle.injEq, Address.member.injEq]
    omega
  | @hop i x sender rest hi hmember hx hmailbox =>
    have hnext : (i + 1) % n < n := Nat.mod_lt _ (by omega)
    have hload := Mailboxes.load_pop (w := TokenRing.due n j) (mem_actors_member.mpr hi) hmailbox
    have hsucc : x.toNat = (x - 1).toNat + 1 := by omega
    simp only [TokenRing.due, hsucc, visits] at hload
    simp only [Label.handle.injEq, Address.member.injEq, TokenRing.due,
      Mailboxes.load_send (mem_actors_member.mpr hnext)]
    omega
  | @signal i x sender rest hi hmember hx hmailbox =>
    have hload := Mailboxes.load_pop (w := TokenRing.due n j) (mem_actors_member.mpr hi) hmailbox
    have hzero : x.toNat = 0 := by omega
    simp only [TokenRing.due, hzero, visits] at hload
    simp only [Label.handle.injEq, Address.member.injEq, TokenRing.due,
      Mailboxes.load_send mem_actors_receiver]
    omega
  | receive hmailbox =>
    have hload :=
      Mailboxes.load_pop (w := TokenRing.due n j) (mem_actors_receiver (n := n)) hmailbox
    simp only [TokenRing.due, Nat.add_zero] at hload
    simp [hload]
  | wake hwait => simp

theorem handled_of_run (hj : j < n) {ls : List Label}
    (h : (system n v).Run (.initial n) ls s) :
    ls.count (.handle (.member j)) + s.mailbox.load (actors n) (due n j) = s.main.due n j v := by
  induction h with
  | nil =>
    have hload : (State.initial n).mailbox.load (actors n) (due n j) = 0 :=
      Mailboxes.load_eq_zero fun _ _ => rfl
    rw [hload]
    exact (if_neg (Nat.not_le.mpr hj)).symm
  | @snoc t u ls l hrun hstep ih =>
    have hinv := inv_of_reachable ⟨_, ls, rfl, hrun⟩
    have hdue := (hinv.steps_of_next hstep).due j
    rw [List.count_append, List.count_singleton]
    simp only [beq_iff_eq]
    omega

/-- Going round a ring. -/
theorem sum_next (n : ℕ) (f : ℕ → ℕ) :
    ∑ i ∈ Finset.range n, f ((i + 1) % n) = ∑ i ∈ Finset.range n, f i := by
  cases n with
  | zero => rfl
  | succ m =>
    rw [Finset.sum_range_succ, Nat.mod_self, Finset.sum_range_succ']
    congr 1
    refine Finset.sum_congr rfl fun i hi => ?_
    rw [Nat.mod_eq_of_lt (Nat.succ_lt_succ (Finset.mem_range.mp hi))]

theorem sum_visits (hj : j < n) (x : ℕ) : ∑ i ∈ Finset.range n, visits n j i x = x + 1 := by
  have hone : ∑ i ∈ Finset.range n, (if i = j then 1 else 0) = 1 := by
    rw [Finset.sum_ite_eq', if_pos (Finset.mem_range.mpr hj)]
  induction x with
  | zero => simpa only [visits] using hone
  | succ x ih =>
    simp only [visits]
    rw [Finset.sum_add_distrib, hone, sum_next n fun i => visits n j i x, ih, Nat.add_comm]

/-- A token goes from one member to the next. -/
def State.isHop (s : State) : Label → Bool
  | .handle (.member i) =>
    match s.mailbox (.member i) with
    | (.int x, _) :: _ => decide (x > 0)
    | _ => false
  | _ => false

/-- How often a token goes on in a run from `s`. -/
def hops (n : ℕ) (v : ℤ) : State → List Label → ℕ
  | _, [] => 0
  | s, l :: ls => (s.isHop l).toNat + (s.next n v l).elim 0 fun s' => hops n v s' ls

/-- How often a token will go on because of this message. -/
def way : Address → Message × Address → ℕ
  | .member _, (.int x, _) => x.toNat
  | _, _ => 0

/-- How often the tokens that `main` has given out go on. -/
def Main.way (n : ℕ) (v : ℤ) (m : Main) : ℕ := m.given n * v.toNat

/-- A token that has gone on has one hop less before it. -/
theorem Steps.way (ht : Steps n v s l s') :
    (s.isHop l).toNat + s'.mailbox.load (actors n) TokenRing.way + s.main.way n v =
      s.mailbox.load (actors n) TokenRing.way + s'.main.way n v := by
  cases ht with
  | @tell i hm hi =>
    simp [hm, Main.way, Main.given, State.isHop, Mailboxes.load_send (mem_actors_member.mpr hi),
      TokenRing.way]
  | told hm => simp [hm, Main.way, Main.given, State.isHop]
  | @give i hm hi =>
    simp only [hm, Main.way, Main.given, State.isHop, Bool.toNat_false, Nat.succ_mul,
      Mailboxes.load_send (mem_actors_member.mpr hi), TokenRing.way]
    omega
  | given hm hi => simp [hm, hi, Main.way, Main.given, State.isHop]
  | take hm hi hawake hqueue => simp [hm, Main.way, Main.given, State.isHop]
  | sleep hm hi hawake hqueue => simp [hm, Main.way, Main.given, State.isHop]
  | «return» hm hi => simp [hm, Main.way, Main.given, State.isHop]
  | @init i next rest htold hi hmember hmailbox =>
    have hload := Mailboxes.load_pop (w := TokenRing.way) (mem_actors_member.mpr hi) hmailbox
    simp only [TokenRing.way] at hload
    simp only [State.isHop, hmailbox, Bool.toNat_false]
    omega
  | @hop i x sender rest hi hmember hx hmailbox =>
    have hnext : (i + 1) % n < n := Nat.mod_lt _ (by omega)
    have hload := Mailboxes.load_pop (w := TokenRing.way) (mem_actors_member.mpr hi) hmailbox
    simp only [TokenRing.way] at hload
    simp only [State.isHop, hmailbox, hx, decide_true, Bool.toNat_true, TokenRing.way,
      Mailboxes.load_send (mem_actors_member.mpr hnext)]
    omega
  | @signal i x sender rest hi hmember hx hmailbox =>
    have hload := Mailboxes.load_pop (w := TokenRing.way) (mem_actors_member.mpr hi) hmailbox
    simp only [TokenRing.way] at hload
    simp only [State.isHop, hmailbox, hx, decide_false, Bool.toNat_false, TokenRing.way,
      Mailboxes.load_send mem_actors_receiver]
    omega
  | receive hmailbox =>
    have hload := Mailboxes.load_pop (w := TokenRing.way) (mem_actors_receiver (n := n)) hmailbox
    simp only [TokenRing.way, Nat.add_zero] at hload
    simp [hload, State.isHop]
  | wake hwait => simp [State.isHop]

theorem hops_of_run {ls : List Label} (hs : Inv n v s) (h : ls.foldlM (State.next n v) s = some s') :
    hops n v s ls + s'.mailbox.load (actors n) way + s.main.way n v =
      s.mailbox.load (actors n) way + s'.main.way n v := by
  induction ls generalizing s with
  | nil =>
    obtain rfl := Option.some.inj h
    exact congrArg (· + _) (Nat.zero_add _)
  | cons l ls ih =>
    obtain ⟨t, ht, hrest⟩ := Option.bind_eq_some_iff.mp h
    have hsteps := hs.steps_of_next ht
    have hone := hsteps.way
    have hmore := ih (hsteps.inv hs) hrest
    rw [hops, ht, Option.elim_some]
    omega

/-- **The hops are shared out evenly, whatever the order of steps.**  When `main` returns, every
member has handled the message that told it who is next, and as many tokens as a token has
values from `token_value` down to zero; the tokens have gone from one member to the next
`num_actors * token_value` times, which is `num_hops` rounded up. -/
theorem ring_balances {num_hops num_actors : ℕ} (hpos : 0 < num_actors) {ls : List Label}
    (h : (system num_actors (tokenValue num_hops num_actors)).Run (.initial num_actors) ls s)
    (hmain : s.main = .returned) :
    (∀ j < num_actors, ls.count (.handle (.member j)) = 1 + (tokenValue num_hops num_actors + 1)) ∧
      hops num_actors (tokenValue num_hops num_actors) (.initial num_actors) ls =
        num_actors * tokenValue num_hops num_actors ∧
      num_hops ≤ num_actors * tokenValue num_hops num_actors ∧
      num_actors * tokenValue num_hops num_actors < num_hops + num_actors := by
  have hnil := ((inv_of_reachable ⟨_, ls, rfl, h⟩).returned hmain).2
  refine ⟨fun j hj => ?_, ?_, ?_, ?_⟩
  · have hhandled := handled_of_run hj h
    rw [Mailboxes.load_eq_zero fun a _ => hnil a, Nat.add_zero, hmain, Main.due,
      sum_visits hj, Int.toNat_natCast] at hhandled
    exact hhandled
  · have hway := hops_of_run (inv_initial _ _) (System.foldlM_of_run h)
    have hnone : (State.initial num_actors).mailbox.load (actors num_actors) way = 0 :=
      Mailboxes.load_eq_zero fun _ _ => rfl
    rw [Mailboxes.load_eq_zero fun a _ => hnil a, hnone, hmain] at hway
    simpa [Main.way, Main.given, State.initial] using hway
  · have hlt := Nat.lt_div_mul_add (a := num_hops + num_actors - 1) hpos
    rw [tokenValue, Nat.mul_comm]
    omega
  · have hle := Nat.div_mul_le_self (num_hops + num_actors - 1) num_actors
    rw [tokenValue, Nat.mul_comm]
    omega

theorem ring_balances_two : ∃ s : State, ∃ ls : List Label, s.main = .returned ∧
    ls.count (.handle (.member 1)) = 3 ∧ hops 2 1 (.initial 2) ls = 2 := by
  let ls : List Label := [.main, .main, .main, .main, .main, .main,
    .handle (.member 0), .handle (.member 1), .handle (.member 0), .handle (.member 1),
    .handle (.member 1), .handle (.member 0), .main, .handle .receiver, .handle .receiver,
    .main, .main, .main]
  let s := (ls.foldlM (State.next 2 (tokenValue 2 2)) (.initial 2)).get (by decide +kernel)
  have hrun : (system 2 (tokenValue 2 2)).Run (.initial 2) ls s := System.run_ofStep (by rfl)
  have hmain : s.main = .returned := by decide +kernel
  obtain ⟨hcount, hhops, -⟩ := ring_balances (by decide) hrun hmain
  exact ⟨s, ls, hmain, hcount 1 (by decide), hhops⟩

end CppProgramming.Executors.TokenRing
