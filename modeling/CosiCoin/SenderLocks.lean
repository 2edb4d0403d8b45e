import CosiCoin.LabelledRuns
import CosiCoin.MessageQueues
import CosiCoin.MutexOwnership

/-!
# COSICOIN: the locks of the sender queues

`Broadcast`, `SendToLeader` and `RunThread_` of lib/comms/client.cc statement by
statement, with the owners of `mq_mtx_` and `st_mtx_`.  Any number of callers
and of sending threads take turns; a thread asleep in `wait` may wake up at any
time the mutex is free, and the destructor may set `stop_threads_`.

`RunThread_` holds `mq_mtx_` through `cv_lock`.  When it has taken a message it
releases the mutex by hand, which `cv_lock` does not learn of, and at the end of
the loop body the destructor of `cv_lock` releases it a second time.  Every
unlock is recorded with the owner at that moment.
-/

namespace CosiCoin

open LabelledRuns
open MutexOwnership

/-- A sending thread, which serves the queue of its number, or a caller of the client. -/
inductive ThreadId where
  | runner (k : Nat)
  | caller (k : Nat)
deriving DecidableEq

/-- The number of the queue a thread serves. -/
def ThreadId.mq : ThreadId → Nat
  | .runner k => k
  | .caller _ => 0

/-- The next statement of a thread. -/
inductive Place where
  /-- A caller outside the client. -/
  | idle
  /-- `Broadcast`: the constructor of the `lock_guard`. -/
  | broadcastLock (m : Message)
  /-- `Broadcast`: the loop over the servers, and the destructor after the last one. -/
  | broadcastPush (m : Message) (i : Nat)
  /-- `SendToLeader`: `mq_mtx_.lock()`. -/
  | leaderLock (m : Message)
  | leaderPush (m : Message)
  /-- `SendToLeader`: `mq_mtx_.unlock()`. -/
  | leaderUnlock
  /-- `RunThread_`: `st_mtx_.lock()` before the loop. -/
  | stLock
  | loopTest
  /-- `RunThread_`: the constructor of `cv_lock`. -/
  | mqLock
  /-- `wait`: the predicate. -/
  | predicate
  /-- `wait`: the mutex is released. -/
  | asleep
  /-- `RunThread_`: `if (!mq->empty())`. -/
  | takeTest
  /-- `RunThread_`: `mq_mtx_.unlock()` after the message was taken. -/
  | mqUnlock (m : Message)
  | sending (m : Message)
  /-- `RunThread_`: `st_mtx_.lock()` at the end of the body; was a message taken? -/
  | bodyEnd (taken : Bool)
  /-- `RunThread_`: the destructor of `cv_lock`. -/
  | scopeExit (taken : Bool)
  | ended

/-- The places between acquiring and releasing `mq_mtx_`. -/
def Place.Inside : Place → Prop
  | .broadcastPush _ _ | .leaderPush _ | .leaderUnlock => True
  | .predicate | .takeTest | .mqUnlock _ => True
  | .bodyEnd taken | .scopeExit taken => taken = false
  | _ => False

/-- The shared fields of a client, the places of its threads and the unlocks so far. -/
structure SenderState where
  owner : Option ThreadId := none
  stOwner : Option ThreadId := none
  stopThreads : Bool := false
  queues : Nat → List Message := fun _ => []
  place : ThreadId → Place
  unlocks : List (ThreadId × Option ThreadId) := []

namespace SenderState

/-- `n` sending threads before their loops, and callers outside the client. -/
def start (n : Nat) : SenderState where
  place
    | .runner k => if k < n then .stLock else .ended
    | .caller _ => .idle

def goto (s : SenderState) (t : ThreadId) (p : Place) : SenderState :=
  { s with place := Function.update s.place t p }

/-- `mq_mtx_.lock()`, possible while the mutex is free. -/
def lockMq (s : SenderState) (t : ThreadId) (p : Place) : Option SenderState :=
  if s.owner = none then some (goto { s with owner := some t } t p) else none

/-- `mq_mtx_.unlock()`, whoever the owner is. -/
def unlockMq (s : SenderState) (t : ThreadId) (p : Place) : SenderState :=
  goto { s with owner := none, unlocks := s.unlocks ++ [(t, s.owner)] } t p

def lockSt (s : SenderState) (t : ThreadId) (p : Place) : Option SenderState :=
  if s.stOwner = none then some (goto { s with stOwner := some t } t p) else none

def unlockSt (s : SenderState) (t : ThreadId) (p : Place) : SenderState :=
  goto { s with stOwner := none } t p

def setQueue (s : SenderState) (i : Nat) (ms : List Message) : SenderState :=
  { s with queues := Function.update s.queues i ms }

/-- One statement of a thread, for `n` servers. -/
def run (n leader : Nat) (s : SenderState) (t : ThreadId) : Option SenderState :=
  match s.place t with
  | .idle => none
  | .broadcastLock m => s.lockMq t (.broadcastPush m 0)
  | .broadcastPush m i =>
      if i < n then
        some ((s.setQueue i (s.queues i ++ [m])).goto t (.broadcastPush m (i + 1)))
      else
        some (s.unlockMq t .idle)
  | .leaderLock m => s.lockMq t (.leaderPush m)
  | .leaderPush m => some ((s.setQueue leader (s.queues leader ++ [m])).goto t .leaderUnlock)
  | .leaderUnlock => some (s.unlockMq t .idle)
  | .stLock => s.lockSt t .loopTest
  | .loopTest => some (s.unlockSt t (if s.stopThreads then .ended else .mqLock))
  | .mqLock => s.lockMq t .predicate
  | .predicate =>
      if s.queues t.mq ≠ [] ∨ s.stopThreads then
        some (s.goto t .takeTest)
      else
        some (s.unlockMq t .asleep)
  | .asleep => s.lockMq t .predicate
  | .takeTest =>
      match s.queues t.mq with
      | [] => some (s.goto t (.bodyEnd false))
      | m :: rest => some ((s.setQueue t.mq rest).goto t (.mqUnlock m))
  | .mqUnlock m => some (s.unlockMq t (.sending m))
  | .sending _ => some (s.goto t (.bodyEnd true))
  | .bodyEnd taken => s.lockSt t (.scopeExit taken)
  | .scopeExit _ => some (s.unlockMq t .loopTest)
  | .ended => none

end SenderState

/-- A caller enters the client, a thread goes on, or the destructor stops the threads. -/
inductive SenderAction where
  | call (k : Nat) (c : ClientCall)
  | run (t : ThreadId)
  | stop

/-- The first statement of a call. -/
def ClientCall.entry : ClientCall → Place
  | .broadcast m => .broadcastLock m
  | .sendToLeader m => .leaderLock m

namespace SenderState

/-- One action, if it is possible. -/
def act (n leader : Nat) (s : SenderState) : SenderAction → Option SenderState
  | .call k c =>
      match s.place (.caller k) with
      | .idle => some (s.goto (.caller k) c.entry)
      | _ => none
  | .run t => s.run n leader t
  | .stop => if s.stOwner = none then some { s with stopThreads := true } else none

/-- The actions as a labelled step relation. -/
def Step (n leader : Nat) (s : SenderState) (a : SenderAction) (s' : SenderState) : Prop :=
  s.act n leader a = some s'

/-- Every unlock was done by the owner, and at most one thread holds the mutex. -/
structure Disciplined (s : SenderState) : Prop where
  unlocks : ∀ u ∈ s.unlocks, u.2 = some u.1
  exclusive : ∀ t t', (s.place t).Inside → (s.place t').Inside → t = t'

/-- No thread that has taken a message comes to the end of its loop body. -/
def EndsWithoutMessage (s : SenderState) (a : SenderAction) : Prop :=
  ∀ t, a = .run t → s.place t ≠ .scopeExit true

/-- The owner is the thread inside, and every unlock was done by the owner. -/
structure Guarding (s : SenderState) : Prop where
  owned : Owned Place.Inside s.owner s.place
  unlocks : ∀ u ∈ s.unlocks, u.2 = some u.1

theorem Guarding.disciplined
    {s : SenderState}
    (h : s.Guarding) :
    s.Disciplined :=
  ⟨h.unlocks, fun _ _ => h.owned.unique⟩

theorem guarding_start
    (n : Nat) :
    (start n).Guarding := by
  refine ⟨?_, fun u hu => absurd hu List.not_mem_nil⟩
  intro t
  refine ⟨fun hin => ?_, fun howner => nomatch howner⟩
  cases t with
  | runner k =>
      have hplace : (start n).place (.runner k) = if k < n then .stLock else .ended := rfl
      rw [hplace] at hin
      split_ifs at hin <;> exact absurd hin id
  | caller k => exact absurd hin id

section Statements

variable {s s' : SenderState} {t : ThreadId} {p q : Place}

theorem Guarding.goto
    (h : s.Guarding)
    (hplace : s.place t = q)
    (hp : p.Inside ↔ q.Inside) :
    (s.goto t p).Guarding :=
  ⟨h.owned.move (hplace ▸ hp), h.unlocks⟩

theorem Guarding.lockMq
    (h : s.Guarding)
    (hlock : s.lockMq t p = some s')
    (hp : p.Inside) :
    s'.Guarding := by
  unfold SenderState.lockMq at hlock
  split_ifs at hlock with hfree
  obtain rfl := Option.some.inj hlock
  exact ⟨(hfree ▸ h.owned).acquire t hp, h.unlocks⟩

/-- An unlock from inside is an unlock by the owner. -/
theorem Guarding.unlockMq
    (h : s.Guarding)
    (hplace : s.place t = q)
    (hq : q.Inside)
    (hp : ¬ p.Inside) :
    (s.unlockMq t p).Guarding := by
  have hin : (s.place t).Inside := hplace ▸ hq
  refine ⟨h.owned.release hin hp, ?_⟩
  intro u hu
  rcases List.mem_append.mp hu with hu | hu
  · exact h.unlocks u hu
  · rw [List.mem_singleton.mp hu]
    exact (h.owned t).mp hin

theorem Guarding.lockSt
    (h : s.Guarding)
    (hlock : s.lockSt t p = some s')
    (hplace : s.place t = q)
    (hp : p.Inside ↔ q.Inside) :
    s'.Guarding := by
  unfold SenderState.lockSt at hlock
  split_ifs at hlock with hfree
  obtain rfl := Option.some.inj hlock
  exact ⟨h.owned.move (hplace ▸ hp), h.unlocks⟩

theorem Guarding.unlockSt
    (h : s.Guarding)
    (hplace : s.place t = q)
    (hp : p.Inside ↔ q.Inside) :
    (s.unlockSt t p).Guarding :=
  ⟨h.owned.move (hplace ▸ hp), h.unlocks⟩

theorem Guarding.setQueue
    (h : s.Guarding)
    (i : Nat)
    (ms : List Message) :
    (s.setQueue i ms).Guarding :=
  ⟨h.owned, h.unlocks⟩

/-- A statement keeps the relation, except the destructor after a message was taken. -/
theorem Guarding.run
    {n leader : Nat}
    (h : s.Guarding)
    (hguard : s.place t ≠ .scopeExit true)
    (hrun : s.run n leader t = some s') :
    s'.Guarding := by
  unfold SenderState.run at hrun
  split at hrun
  · cases hrun
  · exact h.lockMq hrun trivial
  · rename_i m i hplace
    split_ifs at hrun
    · obtain rfl := Option.some.inj hrun
      exact (h.setQueue i _).goto hplace Iff.rfl
    · obtain rfl := Option.some.inj hrun
      exact h.unlockMq hplace trivial id
  · exact h.lockMq hrun trivial
  · rename_i m hplace
    obtain rfl := Option.some.inj hrun
    exact (h.setQueue leader _).goto hplace Iff.rfl
  · rename_i hplace
    obtain rfl := Option.some.inj hrun
    exact h.unlockMq hplace trivial id
  · rename_i hplace
    exact h.lockSt hrun hplace Iff.rfl
  · rename_i hplace
    obtain rfl := Option.some.inj hrun
    refine h.unlockSt hplace ?_
    split_ifs <;> exact Iff.rfl
  · exact h.lockMq hrun trivial
  · rename_i hplace
    split_ifs at hrun
    · obtain rfl := Option.some.inj hrun
      exact h.goto hplace Iff.rfl
    · obtain rfl := Option.some.inj hrun
      exact h.unlockMq hplace trivial id
  · exact h.lockMq hrun trivial
  · rename_i hplace
    split at hrun
    · obtain rfl := Option.some.inj hrun
      exact h.goto hplace ⟨fun _ => trivial, fun _ => rfl⟩
    · obtain rfl := Option.some.inj hrun
      exact (h.setQueue t.mq _).goto hplace Iff.rfl
  · rename_i m hplace
    obtain rfl := Option.some.inj hrun
    exact h.unlockMq hplace trivial id
  · rename_i m hplace
    obtain rfl := Option.some.inj hrun
    exact h.goto hplace ⟨fun htaken => Bool.noConfusion htaken, False.elim⟩
  · rename_i taken hplace
    exact h.lockSt hrun hplace Iff.rfl
  · rename_i taken hplace
    -- the only unlock that may come from outside
    obtain rfl := Option.some.inj hrun
    cases taken with
    | true => exact absurd hplace hguard
    | false => exact h.unlockMq hplace rfl id
  · cases hrun

/-- An action keeps the relation, if no thread with a message ends its loop body. -/
theorem Guarding.step
    {n leader : Nat} {a : SenderAction}
    (h : s.Guarding)
    (hguard : s.EndsWithoutMessage a)
    (hstep : Step n leader s a s') :
    s'.Guarding := by
  unfold Step act at hstep
  cases a with
  | call k c =>
      dsimp only at hstep
      split at hstep
      · rename_i hidle
        obtain rfl := Option.some.inj hstep
        refine h.goto hidle ?_
        cases c <;> exact Iff.rfl
      · cases hstep
  | run t => exact h.run (hguard t rfl) hstep
  | stop =>
      dsimp only at hstep
      split_ifs at hstep
      obtain rfl := Option.some.inj hstep
      exact ⟨h.owned, h.unlocks⟩

/-- The destructor after a message was taken unlocks a mutex the thread does not own. -/
theorem Guarding.not_disciplined
    {n leader : Nat}
    (h : s.Guarding)
    (ht : s.place t = .scopeExit true)
    (hstep : Step n leader s (.run t) s') :
    ¬ s'.Disciplined := by
  have hrun : s.run n leader t = some s' := hstep
  unfold SenderState.run at hrun
  rw [ht] at hrun
  obtain rfl := Option.some.inj hrun
  intro hdisciplined
  have howner : s.owner = some t :=
    hdisciplined.unlocks (t, s.owner) (List.mem_append_right _ (List.mem_singleton.mpr rfl))
  have hin := (h.owned t).mpr howner
  rw [ht] at hin
  exact Bool.noConfusion hin

end Statements

/--
In every run in which no thread with a message comes to the end of its loop
body, every unlock is done by the owner and at most one thread holds the mutex;
the first thread that does come there breaks this.
-/
theorem lock_discipline_of_ends_without_message
    (n leader : Nat)
    {s : SenderState}
    (h : Reachable (fun s => s = start n) (Guarded EndsWithoutMessage (Step n leader)) s) :
    s.Disciplined ∧
      ∀ a s', Step n leader s a s' → (s'.Disciplined ↔ s.EndsWithoutMessage a) := by
  have hguarding : s.Guarding := by
    refine h.invariant ?_ ?_
    · rintro _ rfl
      exact guarding_start n
    · intro s a s' hs hstep
      exact hs.step hstep.1 hstep.2
  refine ⟨hguarding.disciplined, ?_⟩
  intro a s' hstep
  constructor
  · rintro hdisciplined t rfl ht
    exact hguarding.not_disciplined ht hstep hdisciplined
  · intro hguard
    exact (hguarding.step hguard hstep).disciplined

/-- A message that is sent to one server. -/
def greeting : Message where
  type := .send
  block := {}
  senderId := 0
  round := 0

/-- A caller broadcasts twice while the thread of the only server sends the first message. -/
def doubleUnlock : List SenderAction :=
  let c := ThreadId.caller 0
  let r := ThreadId.runner 0
  [.call 0 (.broadcast greeting), .run c, .run c, .run c,
    .run r, .run r, .run r, .run r, .run r, .run r, .run r,
    .call 0 (.broadcast greeting), .run c,
    .run r, .run r, .run r, .run r]

/--
The thread unlocks the mutex the caller has locked for its second broadcast, and
then both are inside.
-/
theorem second_unlock_frees_foreign_lock :
    ∃ s, Reachable (fun s => s = start 1) (Step 1 0) s ∧
      (.runner 0, some (.caller 0)) ∈ s.unlocks ∧
      (s.place (.caller 0)).Inside ∧ (s.place (.runner 0)).Inside := by
  have hrun : ∃ s, doubleUnlock.foldlM (fun s a => s.act 1 0 a) (start 1) = some s ∧
      s.unlocks = [(.caller 0, some (.caller 0)), (.runner 0, some (.runner 0)),
        (.runner 0, some (.caller 0))] ∧
      s.place (.caller 0) = .broadcastPush greeting 0 ∧ s.place (.runner 0) = .predicate :=
    ⟨_, rfl, rfl, rfl, rfl⟩
  obtain ⟨s, hs, hunlocks, hcaller, hrunner⟩ := hrun
  refine ⟨s, Reachable.of_foldlM (fun _ _ _ h => h) (Reachable.start rfl) hs, ?_, ?_, ?_⟩
  · rw [hunlocks]
    exact List.mem_cons_of_mem _ (List.mem_cons_of_mem _ List.mem_cons_self)
  · rw [hcaller]
    trivial
  · rw [hrunner]
    trivial

/-- One action, unless a thread with a message has come to the end of its loop body. -/
def carefulAct (n leader : Nat) (s : SenderState) : SenderAction → Option SenderState
  | .run t =>
      match s.place t with
      | .scopeExit true => none
      | _ => s.run n leader t
  | a => s.act n leader a

theorem carefulAct_eq_some
    {n leader : Nat} {s s' : SenderState} {a : SenderAction}
    (h : s.carefulAct n leader a = some s') :
    Guarded EndsWithoutMessage (Step n leader) s a s' := by
  cases a with
  | call k c =>
      refine ⟨?_, h⟩
      rintro t ht
      cases ht
  | stop =>
      refine ⟨?_, h⟩
      rintro t ht
      cases ht
  | run t =>
      unfold carefulAct at h
      dsimp only at h
      split at h
      · cases h
      · rename_i hplace
        refine ⟨?_, h⟩
        rintro t' ht
        obtain rfl := SenderAction.run.inj ht
        exact hplace

/-- A caller broadcasts to two servers, and the first sending thread takes its message. -/
theorem lock_discipline_of_broadcast :
    ∃ s : SenderState,
      s.unlocks = [(.caller 0, some (.caller 0)), (.runner 0, some (.runner 0))] ∧
      s.place (.runner 0) = .sending greeting ∧ s.Disciplined := by
  let c := ThreadId.caller 0
  let r := ThreadId.runner 0
  have hrun : ∃ s, [.call 0 (.broadcast greeting), .run c, .run c, .run c, .run c, .run r,
        .run r, .run r, .run r, .run r, .run r].foldlM
          (fun s a => carefulAct 2 0 s a) (start 2) = some s ∧
      s.unlocks = [(c, some c), (r, some r)] ∧ s.place r = .sending greeting :=
    ⟨_, rfl, rfl, rfl⟩
  obtain ⟨s, hs, hunlocks, hplace⟩ := hrun
  have hreach : Reachable (fun s => s = start 2) (Guarded EndsWithoutMessage (Step 2 0)) s :=
    Reachable.of_foldlM (fun _ _ _ => carefulAct_eq_some) (Reachable.start rfl) hs
  exact ⟨s, hunlocks, hplace, (lock_discipline_of_ends_without_message 2 0 hreach).1⟩

end SenderState

end CosiCoin
