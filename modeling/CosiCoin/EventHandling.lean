import CosiCoin.LabelledRuns
import Mathlib.Data.List.AList
import Mathlib.Data.List.Perm.Basic

/-!
# COSICOIN: the event loop of a validator

The class `EventHandler` of include/cryptowallet/validator.h.  `runInLoop`
publishes an event and then subscribes its task to that event type; the event
thread pops an event and then runs all tasks subscribed to its type.  Each of
the four is a critical section of its own, and nothing ever unsubscribes a task.

A task is therefore run once for every event of its type that is handled after
its subscription, be it its own event or that of another call, and not at all
when its event is handled before.  `executedOnce_of_oneShot` says when this
comes to exactly once: all tasks of an event type are subscribed before the
first of them is run, by the last event of that type.
-/

namespace CosiCoin

open LabelledRuns

/-- `Event`. -/
inductive Event where
  | none
  | sync
  | tx
  | propose
  | dbstore
deriving DecidableEq

/-- `EventHandler`, for tasks of a type. -/
structure EventHandler (τ : Type) where
  publist : List Event := []
  subsMap : AList (fun _ : Event => List τ) := ∅

namespace EventHandler

variable {τ : Type}

/-- The tasks subscribed to an event type. -/
def subscribers (h : EventHandler τ) (event : Event) : List τ :=
  (h.subsMap.lookup event).getD []

/-- `EventHandler::PublishEvent`. -/
def publishEvent (h : EventHandler τ) (event : Event) : EventHandler τ :=
  { h with publist := h.publist ++ [event] }

/-- `EventHandler::SubscriberEvent`. -/
def subscriberEvent (h : EventHandler τ) (event : Event) (task : τ) : EventHandler τ :=
  { h with subsMap := h.subsMap.insert event (h.subscribers event ++ [task]) }

/-- The first half of a round of `EventProcess`: take the oldest event. -/
def popEvent (h : EventHandler τ) : Option (Event × EventHandler τ) :=
  match h.publist with
  | [] => .none
  | event :: rest => some (event, { h with publist := rest })

@[simp] theorem subscribers_publishEvent
    (h : EventHandler τ) (event event' : Event) :
    (h.publishEvent event).subscribers event' = h.subscribers event' := by
  rfl

@[simp] theorem subscribers_subscriberEvent_self
    (h : EventHandler τ) (event : Event) (task : τ) :
    (h.subscriberEvent event task).subscribers event = h.subscribers event ++ [task] := by
  simp [subscriberEvent, subscribers]

theorem subscribers_subscriberEvent_of_ne
    (h : EventHandler τ) {event event' : Event} (task : τ)
    (hne : event' ≠ event) :
    (h.subscriberEvent event task).subscribers event' = h.subscribers event' := by
  simp [subscriberEvent, subscribers, AList.lookup_insert_ne hne]

theorem popEvent_eq_some
    {h h' : EventHandler τ} {event : Event}
    (hpop : h.popEvent = some (event, h')) :
    h.publist = event :: h'.publist ∧ h'.subsMap = h.subsMap := by
  unfold popEvent at hpop
  split at hpop
  · cases hpop
  · rename_i hpub
    obtain ⟨rfl, rfl⟩ := Prod.mk.inj (Option.some.inj hpop)
    exact ⟨hpub, rfl⟩

end EventHandler

section Loop

variable {τ : Type}

/--
The event loop with its threads: the calls of `runInLoop` between their two
halves, the event that is popped but not run yet, and what has been passed and
executed so far.
-/
structure LoopState (τ : Type) where
  handler : EventHandler τ := {}
  half : List (Event × τ) := []
  current : Option Event := .none
  passed : List (Event × τ) := []
  executed : List (Event × τ) := []

/-- The steps of the threads. -/
inductive LoopAction (τ : Type) where
  | publish (event : Event) (task : τ)
  | subscribe (event : Event) (task : τ)
  | pop
  | run

/-- One step: the halves of `runInLoop` in any thread and those of `EventProcess`. -/
inductive LoopStep : LoopState τ → LoopAction τ → LoopState τ → Prop
  | publish
      (s : LoopState τ) (event : Event) (task : τ) :
      LoopStep s (.publish event task)
        { s with
          handler := s.handler.publishEvent event
          half := s.half ++ [(event, task)]
          passed := s.passed ++ [(event, task)] }
  | subscribe
      (s : LoopState τ) (event : Event) (task : τ) (before after : List (Event × τ))
      (hhalf : s.half = before ++ (event, task) :: after) :
      LoopStep s (.subscribe event task)
        { s with
          handler := s.handler.subscriberEvent event task
          half := before ++ after }
  | pop
      (s : LoopState τ) (event : Event) (handler : EventHandler τ)
      (hidle : s.current = .none)
      (hpop : s.handler.popEvent = some (event, handler)) :
      LoopStep s .pop { s with handler := handler, current := some event }
  | run
      (s : LoopState τ) (event : Event)
      (hcurrent : s.current = some event) :
      LoopStep s .run
        { s with
          current := .none
          executed := s.executed ++ (s.handler.subscribers event).map fun task => (event, task) }

/-- An event loop that has just been constructed. -/
def LoopInit (s : LoopState τ) : Prop :=
  s = {}

/-- Nothing is published, no call is half done and the event thread is idle. -/
def LoopState.Idle (s : LoopState τ) : Prop :=
  s.handler.publist = [] ∧ s.half = [] ∧ s.current = .none

/-- When the loop is idle, the tasks executed are the tasks passed, each as often as passed. -/
def ExecutedOnce (s : LoopState τ) : Prop :=
  s.Idle → (s.executed.map Prod.snd).Perm (s.passed.map Prod.snd)

/-- An event of the type is published, or popped and not yet run. -/
def LoopState.Waiting (s : LoopState τ) (event : Event) : Prop :=
  event ∈ s.handler.publist ∨ s.current = some event

/--
The condition on a step.  A task is passed only while no task of its event type
is subscribed or an event of the type is waiting; it is subscribed while an event
of the type is waiting; and subscribed tasks are run only by the last event of
their type, when no call for the type is half done.
-/
def OneShot (s : LoopState τ) : LoopAction τ → Prop
  | .publish event _ => s.handler.subscribers event = [] ∨ s.Waiting event
  | .subscribe event _ => s.Waiting event
  | .pop => True
  | .run => ∀ event, s.current = some event →
      s.handler.subscribers event = [] ∨
        (event ∉ s.handler.publist ∧ ∀ call ∈ s.half, call.1 ≠ event)

end Loop

section Invariant

variable {τ : Type}

/-- The entries of one event type. -/
def ofEvent (event : Event) (l : List (Event × τ)) : List (Event × τ) :=
  l.filter fun e => e.1 = event

@[simp] theorem ofEvent_append
    (event : Event) (l l' : List (Event × τ)) :
    ofEvent event (l ++ l') = ofEvent event l ++ ofEvent event l' := by
  simp [ofEvent]

theorem ofEvent_cons_self
    (event : Event) (task : τ) (l : List (Event × τ)) :
    ofEvent event ((event, task) :: l) = (event, task) :: ofEvent event l := by
  simp [ofEvent]

theorem ofEvent_cons_of_ne
    {event event' : Event} (task : τ) (l : List (Event × τ))
    (hne : event ≠ event') :
    ofEvent event' ((event, task) :: l) = ofEvent event' l := by
  simp [ofEvent, hne]

theorem ofEvent_map_self
    (event : Event) (tasks : List τ) :
    ofEvent event (tasks.map fun task => (event, task)) =
      tasks.map fun task => (event, task) := by
  simp [ofEvent, List.filter_eq_self]

theorem ofEvent_map_of_ne
    {event event' : Event} (tasks : List τ)
    (hne : event ≠ event') :
    ofEvent event' (tasks.map fun task => (event, task)) = [] := by
  simp [ofEvent, hne]

theorem ofEvent_eq_nil
    {event : Event} {l : List (Event × τ)}
    (h : ∀ e ∈ l, e.1 ≠ event) :
    ofEvent event l = [] := by
  simpa [ofEvent] using h

/-- Lists that agree on every event type agree. -/
theorem perm_of_ofEvent
    {l l' : List (Event × τ)}
    (h : ∀ event, (ofEvent event l).Perm (ofEvent event l')) :
    l.Perm l' := by
  classical
  rw [List.perm_iff_count]
  rintro ⟨event, task⟩
  have hcount : ∀ k : List (Event × τ),
      (ofEvent event k).count (event, task) = k.count (event, task) := by
    intro k
    exact List.count_filter (by simp)
  rw [← hcount l, ← hcount l', (h event).count_eq]

/--
Each task of an event type is subscribed or half passed.  Either none of them
has been executed and an event is waiting for those that are subscribed, or each
has been executed once and nothing is waiting.
-/
structure LoopInv (s : LoopState τ) (event : Event) : Prop where
  split : (ofEvent event s.passed).Perm
    ((s.handler.subscribers event).map (fun task => (event, task)) ++ ofEvent event s.half)
  once :
    (ofEvent event s.executed = [] ∧ (s.handler.subscribers event ≠ [] → s.Waiting event)) ∨
    ((ofEvent event s.executed).Perm
        ((s.handler.subscribers event).map fun task => (event, task)) ∧
      ofEvent event s.half = [] ∧ ¬ s.Waiting event)

theorem loopInv_publish
    {s : LoopState τ} {event : Event} {task : τ}
    (h : ∀ e, LoopInv s e)
    (hguard : OneShot s (.publish event task))
    (event' : Event) :
    LoopInv { s with
      handler := s.handler.publishEvent event
      half := s.half ++ [(event, task)]
      passed := s.passed ++ [(event, task)] } event' := by
  obtain ⟨hsplit, honce⟩ := h event'
  by_cases he : event = event'
  · subst he
    constructor
    · simp only [ofEvent_append, ofEvent_cons_self, EventHandler.subscribers_publishEvent]
      rw [← List.append_assoc]
      exact hsplit.append_right _
    · left
      refine ⟨?_, fun _ => Or.inl (by simp [EventHandler.publishEvent])⟩
      rcases honce with ⟨hnone, _⟩ | ⟨hexecuted, _, hwaiting⟩
      · exact hnone
      · -- nothing is waiting, so no task was subscribed and none executed
        have hempty := hguard.resolve_right hwaiting
        rw [hempty] at hexecuted
        exact hexecuted.eq_nil
  · have hwaiting : LoopState.Waiting { s with
        handler := s.handler.publishEvent event
        half := s.half ++ [(event, task)]
        passed := s.passed ++ [(event, task)] } event' ↔ s.Waiting event' := by
      simp [LoopState.Waiting, EventHandler.publishEvent, Ne.symm he]
    have hpassed : ∀ l : List (Event × τ),
        ofEvent event' (l ++ [(event, task)]) = ofEvent event' l := by
      intro l
      rw [ofEvent_append, ofEvent_cons_of_ne task [] he]
      exact List.append_nil _
    constructor
    · simpa only [hpassed, EventHandler.subscribers_publishEvent] using hsplit
    · simpa only [hpassed, hwaiting, EventHandler.subscribers_publishEvent] using honce

theorem loopInv_subscribe
    {s : LoopState τ} {event : Event} {task : τ} {before after : List (Event × τ)}
    (h : ∀ e, LoopInv s e)
    (hguard : OneShot s (.subscribe event task))
    (hhalf : s.half = before ++ (event, task) :: after)
    (event' : Event) :
    LoopInv { s with
      handler := s.handler.subscriberEvent event task
      half := before ++ after } event' := by
  obtain ⟨hsplit, honce⟩ := h event'
  rw [hhalf] at hsplit honce
  by_cases he : event = event'
  · subst he
    rw [ofEvent_append, ofEvent_cons_self] at hsplit
    constructor
    · rw [ofEvent_append, EventHandler.subscribers_subscriberEvent_self]
      refine hsplit.trans ?_
      rw [List.map_append, List.append_assoc]
      exact List.perm_middle.append_left _
    · left
      refine ⟨?_, fun _ => hguard⟩
      rcases honce with ⟨hnone, _⟩ | ⟨_, _, hwaiting⟩
      · exact hnone
      · exact absurd hguard hwaiting
  · have hsame := s.handler.subscribers_subscriberEvent_of_ne task (Ne.symm he)
    rw [ofEvent_append, ofEvent_cons_of_ne task after he, ← ofEvent_append] at hsplit honce
    constructor
    · rw [hsame]
      exact hsplit
    · rw [hsame]
      exact honce

theorem loopInv_pop
    {s : LoopState τ} {event : Event} {handler : EventHandler τ}
    (h : ∀ e, LoopInv s e)
    (hidle : s.current = .none)
    (hpop : s.handler.popEvent = some (event, handler))
    (event' : Event) :
    LoopInv { s with handler := handler, current := some event } event' := by
  obtain ⟨hsplit, honce⟩ := h event'
  obtain ⟨hpub, hsubs⟩ := EventHandler.popEvent_eq_some hpop
  have hsame : handler.subscribers event' = s.handler.subscribers event' := by
    rw [EventHandler.subscribers, EventHandler.subscribers, hsubs]
  have hwaiting : LoopState.Waiting { s with handler := handler, current := some event } event' ↔
      s.Waiting event' := by
    simp only [LoopState.Waiting, hpub, hidle, List.mem_cons, Option.some.injEq,
      reduceCtorEq, or_false]
    rw [eq_comm, or_comm]
  constructor
  · rw [hsame]
    exact hsplit
  · rw [hsame, hwaiting]
    exact honce

theorem loopInv_run
    {s : LoopState τ} {event : Event}
    (h : ∀ e, LoopInv s e)
    (hguard : OneShot s .run)
    (hcurrent : s.current = some event)
    (event' : Event) :
    LoopInv { s with
      current := .none
      executed := s.executed ++ (s.handler.subscribers event).map fun task => (event, task) }
      event' := by
  obtain ⟨hsplit, honce⟩ := h event'
  refine ⟨hsplit, ?_⟩
  by_cases he : event = event'
  · subst he
    have hwaiting : s.Waiting event := Or.inr hcurrent
    obtain ⟨hnone, _⟩ := honce.resolve_right (fun hserved => hserved.2.2 hwaiting)
    rw [ofEvent_append, hnone, ofEvent_map_self, List.nil_append]
    rcases hguard event hcurrent with hempty | ⟨hlast, hhalf⟩
    · left
      rw [hempty]
      exact ⟨rfl, fun hne => absurd rfl hne⟩
    · right
      refine ⟨List.Perm.refl _, ofEvent_eq_nil hhalf, ?_⟩
      rintro (hmem | hcur)
      · exact hlast hmem
      · cases hcur
  · have hcurrent' : s.current ≠ some event' := by
      rw [hcurrent]
      exact fun heq => he (Option.some.inj heq)
    have hwaiting : LoopState.Waiting { s with
        current := .none
        executed := s.executed ++ (s.handler.subscribers event).map fun task => (event, task) }
        event' ↔ s.Waiting event' := by
      simp [LoopState.Waiting, hcurrent']
    rw [ofEvent_append, ofEvent_map_of_ne _ he, List.append_nil, hwaiting]
    exact honce

theorem loopInv_step
    (s : LoopState τ) (a : LoopAction τ) (s' : LoopState τ)
    (h : ∀ e, LoopInv s e)
    (hstep : Guarded OneShot LoopStep s a s') :
    ∀ e, LoopInv s' e := by
  obtain ⟨hguard, hstep⟩ := hstep
  cases hstep with
  | publish event task =>
      exact loopInv_publish h hguard
  | subscribe event task before after hhalf =>
      exact loopInv_subscribe h hguard hhalf
  | pop event handler hidle hpop =>
      exact loopInv_pop h hidle hpop
  | run event hcurrent =>
      exact loopInv_run h hguard hcurrent

theorem loopInv_init
    (s : LoopState τ)
    (h : LoopInit s) :
    ∀ e, LoopInv s e := by
  subst h
  intro event
  exact ⟨List.Perm.refl _, Or.inl ⟨rfl, fun hne => absurd rfl hne⟩⟩

/--
In every run all of whose steps meet `OneShot`, each task passed to `runInLoop`
has been executed exactly once whenever the loop is idle.
-/
theorem executedOnce_of_oneShot
    (s : LoopState τ)
    (hrun : Reachable LoopInit (Guarded OneShot LoopStep) s) :
    ExecutedOnce s := by
  have hinv : ∀ e, LoopInv s e := hrun.invariant loopInv_init loopInv_step
  rintro ⟨hpub, hhalf, hcurrent⟩
  apply List.Perm.map
  apply perm_of_ofEvent
  intro event
  obtain ⟨hsplit, honce⟩ := hinv event
  have hidle : ¬ s.Waiting event := by
    rintro (hmem | hcur)
    · rw [hpub] at hmem
      cases hmem
    · rw [hcurrent] at hcur
      cases hcur
  have hpassed : (ofEvent event s.passed).Perm
      ((s.handler.subscribers event).map fun task => (event, task)) := by
    rw [hhalf] at hsplit
    exact hsplit.trans (List.Perm.of_eq (List.append_nil _))
  rcases honce with ⟨hnone, hwaiting⟩ | ⟨hexecuted, _, _⟩
  · have hempty : s.handler.subscribers event = [] := by
      by_contra hne
      exact hidle (hwaiting hne)
    rw [hempty] at hpassed
    rw [hnone, hpassed.eq_nil]
  · exact hexecuted.trans hpassed.symm

end Invariant

section SingleCall

/-- A call of `runInLoop` that has published its event. -/
def publishedOnce (event : Event) : LoopState Nat where
  handler := { publist := [event] }
  half := [(event, 0)]
  passed := [(event, 0)]

theorem publishedOnce_reachable
    (event : Event) :
    Reachable LoopInit (Guarded OneShot LoopStep) (publishedOnce event) := by
  have hstart : Reachable LoopInit (Guarded OneShot LoopStep) ({} : LoopState Nat) :=
    .start rfl
  exact hstart.next_guarded (.publish {} event 0) (Or.inl rfl)

/-- The event thread handles the event before the task is subscribed: the task is never run. -/
theorem task_is_lost :
    ∃ s : LoopState Nat, Reachable LoopInit LoopStep s ∧ ¬ ExecutedOnce s := by
  have hpublished : Reachable LoopInit LoopStep (publishedOnce .propose) :=
    (publishedOnce_reachable .propose).mono fun _ _ _ h => h.2
  have hpopped := hpublished.next (.pop _ .propose {} rfl rfl)
  have hran := hpopped.next (.run _ .propose rfl)
  have hsubscribed := hran.next (.subscribe _ .propose 0 [] [] rfl)
  refine ⟨_, hsubscribed, ?_⟩
  intro honce
  have hperm := honce ⟨rfl, rfl, rfl⟩
  have hlength := hperm.length_eq
  revert hlength
  decide

/-- The task is subscribed before its event is handled and runs once. -/
theorem task_runs_once :
    ∃ s : LoopState Nat, s.Idle ∧ s.passed = [(.propose, 0)] ∧
      (s.executed.map Prod.snd).Perm (s.passed.map Prod.snd) := by
  have hsubscribed := (publishedOnce_reachable .propose).next_guarded
    (.subscribe _ .propose 0 [] [] rfl) (Or.inl (List.mem_singleton.mpr rfl))
  have hpopped := hsubscribed.next_guarded (.pop _ .propose _ rfl rfl) trivial
  have hran := hpopped.next_guarded (.run _ .propose rfl) (by
    intro event _
    exact Or.inr ⟨List.not_mem_nil, fun call hcall => absurd hcall List.not_mem_nil⟩)
  have hperm := executedOnce_of_oneShot _ hran ⟨rfl, rfl, rfl⟩
  refine ⟨_, ?_, ?_, hperm⟩
  · exact ⟨rfl, rfl, rfl⟩
  · rfl

end SingleCall

end CosiCoin
