import Mathlib.Algebra.BigOperators.Group.Finset.Basic
import Mathlib.Algebra.GroupWithZero.Nat
import Mathlib.Algebra.Order.BigOperators.Group.Finset

/-!
# Mailboxes

What was sent to each address and is not handled yet, oldest first.  A weight of messages gives
a `load`, the weight of all that is on its way: sending adds the weight of the message, and
handling one takes it off again.  How many messages there are, how much work they stand for and
how often they will come by some place are all loads.
-/

namespace CppProgramming.Lib

variable {A M : Type*} {dom : Finset A} {w : A → M → ℕ} {a : A} {m : M}

abbrev Mailboxes (A M : Type*) := A → List M

namespace Mailboxes

variable {b : Mailboxes A M}

/-- The weight of all messages at the addresses of `dom`. -/
def load (dom : Finset A) (w : A → M → ℕ) (b : Mailboxes A M) : ℕ :=
  ∑ a ∈ dom, ((b a).map (w a)).sum

theorem le_load (h : a ∈ dom) (hm : m ∈ b a) : w a m ≤ load dom w b :=
  (List.single_le_sum (fun _ _ => Nat.zero_le _) _ (List.mem_map_of_mem hm)).trans
    (Finset.single_le_sum (f := fun a => ((b a).map (w a)).sum) (fun _ _ => Nat.zero_le _) h)

theorem load_eq_zero (h : ∀ a ∈ dom, b a = []) : load dom w b = 0 :=
  Finset.sum_eq_zero fun a ha => by rw [h a ha, List.map_nil, List.sum_nil]

variable [DecidableEq A]

def send (b : Mailboxes A M) (a : A) (m : M) : Mailboxes A M := Function.update b a (b a ++ [m])

def pop (b : Mailboxes A M) (a : A) : Mailboxes A M := Function.update b a (b a).tail

@[simp] theorem send_self (b : Mailboxes A M) (a : A) (m : M) : b.send a m a = b a ++ [m] :=
  Function.update_self ..

theorem send_of_ne {a' : A} (h : a' ≠ a) (b : Mailboxes A M) (m : M) : b.send a m a' = b a' :=
  Function.update_of_ne h ..

@[simp] theorem pop_self (b : Mailboxes A M) (a : A) : b.pop a a = (b a).tail :=
  Function.update_self ..

theorem pop_of_ne {a' : A} (h : a' ≠ a) (b : Mailboxes A M) : b.pop a a' = b a' :=
  Function.update_of_ne h ..

theorem load_update (h : a ∈ dom) (l : List M) :
    load dom w (Function.update b a l) + ((b a).map (w a)).sum =
      load dom w b + (l.map (w a)).sum := by
  have hrest : ∑ a' ∈ dom.erase a, ((Function.update b a l a').map (w a')).sum =
      ∑ a' ∈ dom.erase a, ((b a').map (w a')).sum :=
    Finset.sum_congr rfl fun a' ha' => by rw [Function.update_of_ne (Finset.ne_of_mem_erase ha')]
  rw [load, load, ← Finset.add_sum_erase _ _ h, ← Finset.add_sum_erase dom _ h, hrest,
    Function.update_self]
  omega

theorem load_send (h : a ∈ dom) : load dom w (b.send a m) = load dom w b + w a m := by
  have hupdate := load_update (w := w) (b := b) h (b a ++ [m])
  rw [List.map_append, List.sum_append, List.map_singleton, List.sum_singleton] at hupdate
  rw [send]
  omega

theorem load_pop (h : a ∈ dom) {rest : List M} (hb : b a = m :: rest) :
    load dom w (b.pop a) + w a m = load dom w b := by
  have hupdate := load_update (w := w) (b := b) h rest
  rw [hb, List.map_cons, List.sum_cons] at hupdate
  rw [pop, hb, List.tail_cons]
  omega

end Mailboxes

end CppProgramming.Lib
