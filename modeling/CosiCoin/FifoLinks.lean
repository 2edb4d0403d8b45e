import Mathlib.Algebra.BigOperators.Group.Finset.Basic
import Mathlib.Algebra.Order.BigOperators.Group.Finset
import Mathlib.Data.Finset.Basic

/-!
# First-in-first-out links

Every pair of processes has an outgoing queue, and every process an inbox into
which the heads of the queues that lead to it are moved.  A broadcast appends
messages to all queues of its sender, a transfer moves one head, and a process
drains its inbox at once.

`inFlight S p links j` counts the messages with property `p` on their way to
`j` from the senders in `S`, in queues or in the inbox.  A broadcast adds to it,
a transfer keeps it, and draining takes off what was in the inbox, so what is
sent is either in flight or has been drained.

`InOrder carry sent out arrived` says the same of a single link with the order of
the messages: those sent are the ones that have arrived, as carried, followed by
those on their way.
-/

namespace FifoLinks

universe u v

variable {ι : Type u}
variable {M : Type v}

/-- The queues between all processes and their inboxes, oldest message first. -/
structure Links (ι : Type u) (M : Type v) where
  out : ι → ι → List M
  inbox : ι → List M

namespace Links

/-- No message anywhere. -/
def empty : Links ι M where
  out := fun _ _ => []
  inbox := fun _ => []

variable [DecidableEq ι]

/-- Append messages to the queues of `i` that lead to members of `V`. -/
def push (l : Links ι M) (V : Finset ι) (i : ι) (ms : List M) : Links ι M where
  out := Function.update l.out i fun j => if j ∈ V then l.out i j ++ ms else l.out i j
  inbox := l.inbox

/-- The queue from `i` to `j` becomes `rest` and `m` arrives at `j`. -/
def transfer (l : Links ι M) (i j : ι) (rest : List M) (m : M) : Links ι M where
  out := Function.update l.out i (Function.update (l.out i) j rest)
  inbox := Function.update l.inbox j (l.inbox j ++ [m])

/-- The inbox of `j` is emptied. -/
def drain (l : Links ι M) (j : ι) : Links ι M where
  out := l.out
  inbox := Function.update l.inbox j []

/-- The queues of `i` are lost. -/
def clear (l : Links ι M) (i : ι) : Links ι M where
  out := Function.update l.out i fun _ => []
  inbox := l.inbox

theorem push_nil
    (l : Links ι M) (V : Finset ι) (i : ι) :
    l.push V i [] = l := by
  cases l with
  | mk out inbox => simp [push]

end Links

open Links

section Counting

/-- The messages with property `p` on their way to `j`. -/
def inFlight (S : Finset ι) (p : M → Bool) (l : Links ι M) (j : ι) : Nat :=
  ∑ i ∈ S, (l.out i j).countP p + (l.inbox j).countP p

variable {S V : Finset ι}
variable {p : M → Bool}
variable {l : Links ι M}

/-- A sum changes by what one of its terms changes. -/
theorem sum_add_of_eq_off
    [DecidableEq ι]
    {f g : ι → Nat} {i : ι} {d : Nat}
    (hi : i ∈ S)
    (hoff : ∀ k, k ≠ i → g k = f k)
    (hat : g i = f i + d) :
    ∑ k ∈ S, g k = ∑ k ∈ S, f k + d := by
  have hrest : ∑ k ∈ S.erase i, g k = ∑ k ∈ S.erase i, f k :=
    Finset.sum_congr rfl fun k hk => hoff k (Finset.ne_of_mem_erase hk)
  have hg := Finset.add_sum_erase S g hi
  have hf := Finset.add_sum_erase S f hi
  omega

theorem inFlight_empty
    (j : ι) :
    inFlight S p (empty : Links ι M) j = 0 := by
  simp [inFlight, empty]

variable [DecidableEq ι]

theorem inFlight_push
    {i j : ι}
    (hi : i ∈ S)
    (hj : j ∈ V)
    (ms : List M) :
    inFlight S p (l.push V i ms) j = inFlight S p l j + ms.countP p := by
  have hsum : ∑ k ∈ S, ((l.push V i ms).out k j).countP p =
      ∑ k ∈ S, (l.out k j).countP p + ms.countP p := by
    refine sum_add_of_eq_off hi ?_ ?_
    · intro k hk
      simp [push, hk]
    · simp [push, hj]
  unfold inFlight
  rw [hsum]
  simp only [push]
  omega

/-- The head of a queue counts the same in the inbox. -/
theorem inFlight_transfer
    {i j : ι} {m m' : M} {rest : List M}
    (hi : i ∈ S)
    (hout : l.out i j = m :: rest)
    (hp : p m' = p m)
    (k : ι) :
    inFlight S p (l.transfer i j rest m') k = inFlight S p l k := by
  unfold inFlight
  by_cases hk : k = j
  · subst hk
    have hsum : ∑ a ∈ S, (l.out a k).countP p =
        ∑ a ∈ S, ((l.transfer i k rest m').out a k).countP p + if p m then 1 else 0 := by
      refine sum_add_of_eq_off hi ?_ ?_
      · intro a ha
        simp [transfer, ha]
      · simp [transfer, hout, List.countP_cons]
    rw [hsum]
    simp only [transfer, Function.update_self, List.countP_append, List.countP_singleton, hp]
    omega
  · have hsame : ∀ a, (l.transfer i j rest m').out a k = l.out a k := by
      intro a
      by_cases ha : a = i
      · subst ha
        simp [transfer, hk]
      · simp [transfer, ha]
    simp only [hsame]
    simp [transfer, hk]

theorem inFlight_drain_self
    (j : ι) :
    inFlight S p (l.drain j) j + (l.inbox j).countP p = inFlight S p l j := by
  simp [inFlight, drain]

theorem inFlight_drain_of_ne
    {j k : ι}
    (h : k ≠ j) :
    inFlight S p (l.drain j) k = inFlight S p l k := by
  simp [inFlight, drain, h]

end Counting

section Order

variable {carry : M → M → Prop}
variable {sent out arrived : List M}

/-- The messages sent are those that arrived followed by those on their way. -/
def InOrder (carry : M → M → Prop) (sent out arrived : List M) : Prop :=
  ∃ done, sent = done ++ out ∧ List.Forall₂ carry done arrived

theorem InOrder.nil :
    InOrder carry [] [] [] :=
  ⟨[], rfl, .nil⟩

/-- Messages enter at the end of the link. -/
theorem InOrder.send
    (h : InOrder carry sent out arrived)
    (ms : List M) :
    InOrder carry (sent ++ ms) (out ++ ms) arrived := by
  obtain ⟨done, rfl, hdone⟩ := h
  exact ⟨done, List.append_assoc _ _ _, hdone⟩

/-- The oldest message on the link arrives after all others. -/
theorem InOrder.arrive
    {m m' : M}
    (h : InOrder carry sent (m :: out) arrived)
    (hm : carry m m') :
    InOrder carry sent out (arrived ++ [m']) := by
  obtain ⟨done, rfl, hdone⟩ := h
  refine ⟨done ++ [m], by simp, ?_⟩
  exact List.rel_append hdone (.cons hm .nil)

end Order

end FifoLinks
