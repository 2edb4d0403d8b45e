import CosiCoin.LabelledRuns
import Mathlib.Data.List.Induction
import Mathlib.Data.List.Nodup
import Mathlib.Logic.Function.Basic

/-!
# Servers on a completion queue

A server of asynchronous calls keeps one object for each call it serves.  An
object registers with the library for the next call of its method; when one comes
in, its address is put in the completion queue.  The loop of the server takes an
address from the queue and lets the object proceed: it creates an object for the
next call of the method, processes its own request and has the answer sent; when
the answer is out its address is queued again, and the object deletes itself.

The methods, requests, answers and the state the requests are processed on are
arbitrary, and so are the addresses new objects get, as long as no living object
has them.  `Serves` is the invariant of all runs (`serves_of_reachable`):

* no queued address is that of a deleted object;
* each method has exactly one object that waits, registered or with a request;
* the requests of a method are processed once, in the order they came in.
-/

namespace CompletionQueues

open LabelledRuns

universe u v w x y

/-- The serving state of an object. -/
inductive Status where
  | create
  | startProcess
  | finish
deriving DecidableEq

/-- The object of one call. -/
structure CallObject (μ : Type u) (ρ : Type v) where
  method : μ
  status : Status := .create
  request : Option ρ := none

/-- What makes the loop end: an address without an object, an object that proceeds
without a request, or an exception of the processing. -/
inductive Fault (ε : Type y) where
  | deleted
  | unread
  | thrown (e : ε)

/-- The objects by their addresses, what the library knows of them, and the state
the requests work on; what has come in, been processed and answered is recorded. -/
structure Engine (μ : Type u) (ρ : Type v) (σ : Type w) (α : Type x) where
  calls : Nat → Option (CallObject μ ρ) := fun _ => none
  requested : List Nat := []
  finishing : List Nat := []
  cq : List Nat := []
  state : σ
  arrived : List ρ := []
  processed : List ρ := []
  answers : List (ρ × α) := []

section Steps

variable {μ : Type u}
variable {ρ : Type v}
variable {σ : Type w}
variable {α : Type x}
variable {ε : Type y}

namespace Engine

/-- A new object at address `b` registers for the next call of its method. -/
def create (e : Engine μ ρ σ α) (method : μ) (b : Nat) : Engine μ ρ σ α :=
  { e with
    calls := Function.update e.calls b (some { method := method, status := .startProcess })
    requested := e.requested ++ [b] }

/-- The server before its loop, with an object for each method. -/
def start (place : μ → Nat) (methods : List μ) (s : σ) : Engine μ ρ σ α :=
  methods.foldl (fun e m => e.create m (place m)) { state := s }

/-- The answer to the request of the object at `a` is handed to the library. -/
def finish (e : Engine μ ρ σ α) (a : Nat) (cd : CallObject μ ρ) (request : ρ) (r : σ × α) :
    Engine μ ρ σ α :=
  { e with
    calls := Function.update e.calls a (some { cd with status := .finish })
    finishing := e.finishing ++ [a]
    state := r.1
    processed := e.processed ++ [request]
    answers := e.answers ++ [(request, r.2)] }

/-- The object at `a` proceeds; `b` is the address of the object it creates. -/
def proceed (process : ρ → σ → Except ε (σ × α)) (e : Engine μ ρ σ α) (a b : Nat) :
    Except (Fault ε) (Engine μ ρ σ α) :=
  match e.calls a with
  | none => .error .deleted
  | some cd =>
      match cd.status with
      | .create =>
          .ok { e with
            calls := Function.update e.calls a (some { cd with status := .startProcess })
            requested := e.requested ++ [a] }
      | .startProcess =>
          let e := e.create cd.method b
          match cd.request with
          | none => .error .unread
          | some request =>
              match process request e.state with
              | .error thrown => .error (.thrown thrown)
              | .ok r => .ok (e.finish a cd request r)
      | .finish => .ok { e with calls := Function.update e.calls a none }

/-- One round of the loop, on the queued address `a`. -/
def next (process : ρ → σ → Except ε (σ × α)) (e : Engine μ ρ σ α) (a b : Nat) :
    Except (Fault ε) (Engine μ ρ σ α) :=
  proceed process { e with cq := e.cq.erase a } a b

end Engine

/-- What happens to a server. -/
inductive Action (ρ : Type v) where
  | arrive (a : Nat) (request : ρ)
  | sent (a : Nat)
  | next (a b : Nat)
  | own

/-- A call comes in for a registered object of its method, an answer goes out, the
loop takes an address from the queue, or the owner of the server uses its state. -/
inductive Step
    (kind : ρ → μ)
    (process : ρ → σ → Except ε (σ × α))
    (owner : σ → σ → Prop) :
    Engine μ ρ σ α → Action ρ → Engine μ ρ σ α → Prop
  | arrive
      {e : Engine μ ρ σ α} {a : Nat} {cd : CallObject μ ρ} {request : ρ}
      (ha : a ∈ e.requested)
      (hcd : e.calls a = some cd)
      (hkind : kind request = cd.method) :
      Step kind process owner e (.arrive a request) { e with
        calls := Function.update e.calls a (some { cd with request := some request })
        requested := e.requested.erase a
        cq := e.cq ++ [a]
        arrived := e.arrived ++ [request] }
  | sent
      {e : Engine μ ρ σ α} {a : Nat}
      (ha : a ∈ e.finishing) :
      Step kind process owner e (.sent a) { e with
        finishing := e.finishing.erase a
        cq := e.cq ++ [a] }
  | next
      {e e' : Engine μ ρ σ α} {a b : Nat}
      (ha : a ∈ e.cq)
      (hb : e.calls b = none)
      (h : e.next process a b = .ok e') :
      Step kind process owner e (.next a b) e'
  | own
      {e : Engine μ ρ σ α} {s : σ}
      (h : owner e.state s) :
      Step kind process owner e .own { e with state := s }

end Steps

section Invariant

variable {μ : Type u} [DecidableEq μ]
variable {ρ : Type v}
variable {σ : Type w}
variable {α : Type x}
variable {ε : Type y}

/-- The request of the object at an address, if it has one. -/
def Engine.pending (e : Engine μ ρ σ α) (a : Nat) : List ρ :=
  match e.calls a with
  | some cd => cd.request.toList
  | none => []

/-- The requests of one method. -/
def ofMethod (kind : ρ → μ) (m : μ) (requests : List ρ) : List ρ :=
  requests.filter fun r => kind r = m

/-- What the library knows of the object at an address. -/
inductive Tagged (kind : ρ → μ) (e : Engine μ ρ σ α) (a : Nat) (cd : CallObject μ ρ) : Prop
  | registered
      (h : a ∈ e.requested) (hstatus : cd.status = .startProcess) (hrequest : cd.request = none)
  | ready
      {r : ρ}
      (h : a ∈ e.cq) (hstatus : cd.status = .startProcess) (hrequest : cd.request = some r)
      (hkind : kind r = cd.method)
  | finishing
      (h : a ∈ e.finishing) (hstatus : cd.status = .finish)
  | finished
      (h : a ∈ e.cq) (hstatus : cd.status = .finish)

/-- The objects and the library agree, and `slot m` is the object that waits for `m`. -/
structure Serves (kind : ρ → μ) (slot : μ → Nat) (e : Engine μ ρ σ α) : Prop where
  nodup : (e.requested ++ (e.finishing ++ e.cq)).Nodup
  living : ∀ a, a ∈ e.requested ++ (e.finishing ++ e.cq) → ∃ cd, e.calls a = some cd
  tagged : ∀ a cd, e.calls a = some cd → Tagged kind e a cd
  waiting : ∀ a cd, e.calls a = some cd → cd.status = .startProcess → a = slot cd.method
  slots : ∀ m, ∃ cd, e.calls (slot m) = some cd ∧ cd.method = m ∧ cd.status = .startProcess
  inOrder : ∀ m,
    ofMethod kind m e.arrived = ofMethod kind m e.processed ++ e.pending (slot m)
  answered : e.answers.map Prod.fst = e.processed

variable {kind : ρ → μ}
variable {process : ρ → σ → Except ε (σ × α)}
variable {owner : σ → σ → Prop}

theorem ofMethod_append
    (m : μ) (xs ys : List ρ) :
    ofMethod kind m (xs ++ ys) = ofMethod kind m xs ++ ofMethod kind m ys :=
  List.filter_append _ _

theorem ofMethod_singleton
    (r : ρ) :
    ofMethod kind (kind r) [r] = [r] := by
  simp [ofMethod]

theorem ofMethod_singleton_ne
    {m : μ} {r : ρ}
    (h : kind r ≠ m) :
    ofMethod kind m [r] = [] := by
  simp [ofMethod, h]

section Tags

variable {slot : μ → Nat}
variable {e : Engine μ ρ σ α}

/-- An address is in at most one of the three lists. -/
theorem Serves.disjoint
    (h : Serves kind slot e)
    (a : Nat) :
    ¬ (a ∈ e.requested ∧ a ∈ e.finishing) ∧ ¬ (a ∈ e.requested ∧ a ∈ e.cq) ∧
      ¬ (a ∈ e.finishing ∧ a ∈ e.cq) := by
  obtain ⟨_, hrest, hdis⟩ := List.nodup_append.mp h.nodup
  obtain ⟨_, _, hdis'⟩ := List.nodup_append.mp hrest
  refine ⟨?_, ?_, ?_⟩
  · rintro ⟨hr, hf⟩
    exact hdis a hr a (List.mem_append_left _ hf) rfl
  · rintro ⟨hr, hq⟩
    exact hdis a hr a (List.mem_append_right _ hq) rfl
  · rintro ⟨hf, hq⟩
    exact hdis' a hf a hq rfl

theorem Serves.of_requested
    (h : Serves kind slot e)
    {a : Nat} {cd : CallObject μ ρ}
    (ha : a ∈ e.requested)
    (hcd : e.calls a = some cd) :
    cd.status = .startProcess ∧ cd.request = none := by
  have hdis := h.disjoint a
  cases h.tagged a cd hcd with
  | registered _ hstatus hrequest => exact ⟨hstatus, hrequest⟩
  | ready hq _ _ _ => exact absurd ⟨ha, hq⟩ hdis.2.1
  | finishing hf _ => exact absurd ⟨ha, hf⟩ hdis.1
  | finished hq _ => exact absurd ⟨ha, hq⟩ hdis.2.1

theorem Serves.of_finishing
    (h : Serves kind slot e)
    {a : Nat} {cd : CallObject μ ρ}
    (ha : a ∈ e.finishing)
    (hcd : e.calls a = some cd) :
    cd.status = .finish := by
  have hdis := h.disjoint a
  cases h.tagged a cd hcd with
  | registered hr _ _ => exact absurd ⟨hr, ha⟩ hdis.1
  | ready hq _ _ _ => exact absurd ⟨ha, hq⟩ hdis.2.2
  | finishing _ hstatus => exact hstatus
  | finished _ hstatus => exact hstatus

/-- A queued object has a request or is done. -/
theorem Serves.of_cq
    (h : Serves kind slot e)
    {a : Nat} {cd : CallObject μ ρ}
    (ha : a ∈ e.cq)
    (hcd : e.calls a = some cd) :
    (cd.status = .startProcess ∧ ∃ r, cd.request = some r ∧ kind r = cd.method) ∨
      cd.status = .finish := by
  have hdis := h.disjoint a
  cases h.tagged a cd hcd with
  | registered hr _ _ => exact absurd ⟨hr, ha⟩ hdis.2.1
  | ready _ hstatus hrequest hkind => exact .inl ⟨hstatus, _, hrequest, hkind⟩
  | finishing hf _ => exact absurd ⟨hf, ha⟩ hdis.2.2
  | finished _ hstatus => exact .inr hstatus

/-- The object that waits for a method has that method. -/
theorem Serves.slot_ne
    (h : Serves kind slot e)
    {a : Nat} {cd : CallObject μ ρ} {m : μ}
    (hcd : e.calls a = some cd)
    (hm : m ≠ cd.method) :
    slot m ≠ a := by
  intro hsa
  obtain ⟨cd', hcd', hmethod, _⟩ := h.slots m
  rw [hsa, hcd] at hcd'
  obtain rfl := Option.some.inj hcd'
  exact hm hmethod.symm

/-- The object that waits for a method exists. -/
theorem Serves.slot_ne_of_none
    (h : Serves kind slot e)
    {b : Nat}
    (hb : e.calls b = none)
    (m : μ) :
    slot m ≠ b := by
  intro hsb
  obtain ⟨cd', hcd', _⟩ := h.slots m
  rw [hsb, hb] at hcd'
  cases hcd'

/-- Exactly one object waits for each method. -/
theorem Serves.existsUnique_waiting
    (h : Serves kind slot e)
    (m : μ) :
    ∃! a, ∃ cd, e.calls a = some cd ∧ cd.method = m ∧ cd.status = .startProcess := by
  refine ⟨slot m, h.slots m, ?_⟩
  rintro a ⟨cd, hcd, rfl, hstatus⟩
  exact h.waiting a cd hcd hstatus

/-- The loop goes on unless the processing of a request throws. -/
theorem Serves.next_cases
    (h : Serves kind slot e)
    {a b : Nat}
    (ha : a ∈ e.cq)
    (process : ρ → σ → Except ε (σ × α)) :
    (∃ e', e.next process a b = .ok e') ∨
      ∃ cd r thrown, e.calls a = some cd ∧ cd.status = .startProcess ∧ cd.request = some r ∧
        process r e.state = .error thrown ∧ e.next process a b = .error (.thrown thrown) := by
  obtain ⟨cd, hcd⟩ := h.living a
    (List.mem_append_right _ (List.mem_append_right _ ha))
  rcases h.of_cq ha hcd with ⟨hstatus, r, hrequest, _⟩ | hstatus
  · simp only [Engine.next, Engine.proceed, hcd, hstatus, hrequest, Engine.create]
    cases hprocess : process r e.state with
    | ok result => exact .inl ⟨_, rfl⟩
    | error thrown => exact .inr ⟨cd, r, thrown, rfl, hstatus, hrequest, hprocess, rfl⟩
  · simp only [Engine.next, Engine.proceed, hcd, hstatus]
    exact .inl ⟨_, rfl⟩

end Tags

section Start

/-- An object that has just registered. -/
def newObject (ρ : Type v) (m : μ) : CallObject μ ρ :=
  { method := m, status := .startProcess }

omit [DecidableEq μ] in
/-- What the objects and lists are before the loop. -/
theorem start_eq
    (place : μ → Nat) (s : σ) (methods : List μ) :
    (∀ a cd, (Engine.start place methods s : Engine μ ρ σ α).calls a = some cd →
      ∃ m ∈ methods, a = place m ∧ cd = newObject ρ m) ∧
    (Engine.start place methods s : Engine μ ρ σ α) =
      { calls := (Engine.start place methods s : Engine μ ρ σ α).calls
        requested := methods.map place
        state := s } := by
  induction methods using List.reverseRecOn with
  | nil =>
      refine ⟨?_, rfl⟩
      intro a cd h
      cases h
  | append_singleton ms m ih =>
      obtain ⟨hcalls, heq⟩ := ih
      have hsnoc : (Engine.start place (ms ++ [m]) s : Engine μ ρ σ α) =
          (Engine.start place ms s : Engine μ ρ σ α).create m (place m) := by
        rw [Engine.start, List.foldl_append]
        rfl
      rw [hsnoc]
      constructor
      · intro a cd h
        by_cases haa : a = place m
        · subst haa
          rw [Engine.create] at h
          dsimp only at h
          rw [Function.update_self] at h
          obtain rfl := Option.some.inj h
          exact ⟨m, List.mem_append_right _ (List.mem_singleton_self m), rfl, rfl⟩
        · rw [Engine.create] at h
          dsimp only at h
          rw [Function.update_of_ne haa] at h
          obtain ⟨m', hm', hplace, hnew⟩ := hcalls a cd h
          exact ⟨m', List.mem_append_left _ hm', hplace, hnew⟩
      · rw [List.map_append, Engine.create]
        rw [heq]
        rfl

omit [DecidableEq μ] in
theorem start_calls
    {place : μ → Nat}
    (hplace : Function.Injective place)
    (s : σ) (methods : List μ) :
    ∀ m ∈ methods, (Engine.start place methods s : Engine μ ρ σ α).calls (place m) =
      some (newObject ρ m) := by
  induction methods using List.reverseRecOn with
  | nil =>
      intro m hm
      cases hm
  | append_singleton ms m' ih =>
      intro m hm
      have hsnoc : (Engine.start place (ms ++ [m']) s : Engine μ ρ σ α) =
          (Engine.start place ms s : Engine μ ρ σ α).create m' (place m') := by
        rw [Engine.start, List.foldl_append]
        rfl
      rw [hsnoc, Engine.create]
      dsimp only
      by_cases hmm : m = m'
      · rw [hmm, Function.update_self]
        rfl
      · rw [Function.update_of_ne (hplace.ne hmm)]
        refine ih m ((List.mem_append.mp hm).resolve_right ?_)
        intro hlast
        exact hmm (List.mem_singleton.mp hlast)

/-- With one object for each method, at different addresses, the server serves. -/
theorem serves_start
    {place : μ → Nat}
    (hplace : Function.Injective place)
    {methods : List μ}
    (hnodup : methods.Nodup)
    (hall : ∀ m, m ∈ methods)
    (s : σ) :
    Serves kind place (Engine.start place methods s : Engine μ ρ σ α) := by
  obtain ⟨hcalls, heq⟩ := @start_eq μ ρ σ α place s methods
  have hnew := @start_calls μ ρ σ α place hplace s methods
  rw [heq]
  constructor
  · simp only [List.append_nil]
    exact List.Nodup.map hplace hnodup
  · intro a ha
    simp only [List.append_nil] at ha
    obtain ⟨m, hm, rfl⟩ := List.mem_map.mp ha
    exact ⟨_, hnew m hm⟩
  · intro a cd hcd
    obtain ⟨m, hm, rfl, rfl⟩ := hcalls a cd hcd
    exact .registered (List.mem_map_of_mem hm) rfl rfl
  · intro a cd hcd _
    obtain ⟨m, _, rfl, rfl⟩ := hcalls a cd hcd
    rfl
  · intro m
    exact ⟨_, hnew m (hall m), rfl, rfl⟩
  · intro m
    simp only [Engine.pending, hnew m (hall m)]
    rfl
  · rfl

end Start

section Preservation

variable {slot : μ → Nat}
variable {e : Engine μ ρ σ α}

omit [DecidableEq μ] in
/-- The object found after one address has got a new one. -/
theorem update_cases
    {calls : Nat → Option (CallObject μ ρ)} {a a' : Nat} {v : Option (CallObject μ ρ)}
    {cd : CallObject μ ρ}
    (h : Function.update calls a v a' = some cd) :
    a' = a ∧ v = some cd ∨ a' ≠ a ∧ calls a' = some cd := by
  by_cases haa : a' = a
  · subst haa
    rw [Function.update_self] at h
    exact .inl ⟨rfl, h⟩
  · rw [Function.update_of_ne haa] at h
    exact .inr ⟨haa, h⟩

theorem perm_move
    {l m : List Nat} {a : Nat}
    (ha : a ∈ l) :
    (l.erase a ++ (m ++ [a])).Perm (l ++ m) := by
  rw [← List.append_assoc]
  refine (List.perm_append_singleton a _).trans ?_
  rw [← List.cons_append]
  exact (List.perm_cons_erase ha).symm.append_right m

/-- A call comes in. -/
theorem Serves.arrive
    (h : Serves kind slot e)
    {a : Nat} {cd : CallObject μ ρ} {request : ρ}
    (ha : a ∈ e.requested)
    (hcd : e.calls a = some cd)
    (hkind : kind request = cd.method) :
    Serves kind slot { e with
      calls := Function.update e.calls a (some { cd with request := some request })
      requested := e.requested.erase a
      cq := e.cq ++ [a]
      arrived := e.arrived ++ [request] } := by
  obtain ⟨hstatus, hnone⟩ := h.of_requested ha hcd
  have hslot := h.waiting a cd hcd hstatus
  have hperm : (e.requested.erase a ++ (e.finishing ++ (e.cq ++ [a]))).Perm
      (e.requested ++ (e.finishing ++ e.cq)) := by
    rw [← List.append_assoc e.finishing]
    exact perm_move ha
  constructor
  · exact hperm.nodup_iff.mpr h.nodup
  · intro a' ha'
    by_cases haa : a' = a
    · subst haa
      exact ⟨_, Function.update_self _ _ _⟩
    · obtain ⟨cd', hcd'⟩ := h.living a' (hperm.mem_iff.mp ha')
      exact ⟨cd', (Function.update_of_ne haa _ _).trans hcd'⟩
  · intro a' cd' hcd'
    rcases update_cases hcd' with ⟨rfl, hnew⟩ | ⟨haa, hold⟩
    · obtain rfl := Option.some.inj hnew
      exact .ready (List.mem_append_right _ (List.mem_singleton_self _)) hstatus rfl hkind
    · cases h.tagged a' cd' hold with
      | registered hr hs hn => exact .registered ((List.mem_erase_of_ne haa).mpr hr) hs hn
      | ready hq hs hn hk => exact .ready (List.mem_append_left _ hq) hs hn hk
      | finishing hf hs => exact .finishing hf hs
      | finished hq hs => exact .finished (List.mem_append_left _ hq) hs
  · intro a' cd' hcd' hs
    rcases update_cases hcd' with ⟨rfl, hnew⟩ | ⟨haa, hold⟩
    · obtain rfl := Option.some.inj hnew
      exact hslot
    · exact h.waiting a' cd' hold hs
  · intro m
    obtain ⟨cd', hcd', hmethod, hs⟩ := h.slots m
    by_cases haa : slot m = a
    · rw [haa, hcd] at hcd'
      obtain rfl := Option.some.inj hcd'
      rw [haa]
      exact ⟨_, Function.update_self _ _ _, hmethod, hs⟩
    · exact ⟨cd', (Function.update_of_ne haa _ _).trans hcd', hmethod, hs⟩
  · intro m
    have hold := h.inOrder m
    dsimp only
    rw [ofMethod_append, hold]
    by_cases hm : kind request = m
    · -- the object that takes the call had no request before
      obtain rfl := hm
      have hpending : e.pending a = [] := by
        simp [Engine.pending, hcd, hnone]
      rw [hkind, ← hslot, hpending, ← hkind, ofMethod_singleton]
      simp [Engine.pending]
    · have hne : slot m ≠ a := h.slot_ne hcd fun hmethod => hm (hkind.trans hmethod.symm)
      rw [ofMethod_singleton_ne hm, List.append_nil]
      simp [Engine.pending, hne]
  · exact h.answered

/-- An answer goes out. -/
theorem Serves.sent
    (h : Serves kind slot e)
    {a : Nat}
    (ha : a ∈ e.finishing) :
    Serves kind slot { e with
      finishing := e.finishing.erase a
      cq := e.cq ++ [a] } := by
  have hperm : (e.requested ++ (e.finishing.erase a ++ (e.cq ++ [a]))).Perm
      (e.requested ++ (e.finishing ++ e.cq)) :=
    (perm_move ha).append_left _
  constructor
  · exact hperm.nodup_iff.mpr h.nodup
  · intro a' ha'
    exact h.living a' (hperm.mem_iff.mp ha')
  · intro a' cd' hcd'
    by_cases haa : a' = a
    · subst haa
      exact .finished (List.mem_append_right _ (List.mem_singleton_self _))
        (h.of_finishing ha hcd')
    · cases h.tagged a' cd' hcd' with
      | registered hr hs hn => exact .registered hr hs hn
      | ready hq hs hn hk => exact .ready (List.mem_append_left _ hq) hs hn hk
      | finishing hf hs => exact .finishing ((List.mem_erase_of_ne haa).mpr hf) hs
      | finished hq hs => exact .finished (List.mem_append_left _ hq) hs
  · exact h.waiting
  · exact h.slots
  · exact h.inOrder
  · exact h.answered

/-- A request is processed: the object for the next call waits in its place. -/
theorem Serves.handle
    (h : Serves kind slot e)
    {a b : Nat} {cd : CallObject μ ρ} {request : ρ}
    (ha : a ∈ e.cq)
    (hb : e.calls b = none)
    (hcd : e.calls a = some cd)
    (hstatus : cd.status = .startProcess)
    (hrequest : cd.request = some request)
    (r : σ × α) :
    Serves kind (Function.update slot cd.method b)
      ((({ e with cq := e.cq.erase a } : Engine μ ρ σ α).create cd.method b).finish
        a cd request r) := by
  have hslot := h.waiting a cd hcd hstatus
  have hkind : kind request = cd.method := by
    rcases h.of_cq ha hcd with ⟨_, r', hr', hk⟩ | hfinish
    · rw [hrequest] at hr'
      obtain rfl := Option.some.inj hr'
      exact hk
    · rw [hstatus] at hfinish
      cases hfinish
  have hab : b ≠ a := by
    rintro rfl
    rw [hb] at hcd
    cases hcd
  have hperm : (e.requested ++ [b] ++ (e.finishing ++ [a] ++ e.cq.erase a)).Perm
      (b :: (e.requested ++ (e.finishing ++ e.cq))) := by
    rw [List.append_assoc, List.append_assoc, List.singleton_append, List.singleton_append]
    refine List.perm_middle.trans (List.Perm.cons b ?_)
    exact ((List.perm_cons_erase ha).symm.append_left _).append_left _
  have hfresh : b ∉ e.requested ++ (e.finishing ++ e.cq) := by
    intro hmem
    obtain ⟨cd', hcd'⟩ := h.living b hmem
    rw [hb] at hcd'
    cases hcd'
  constructor
  · exact hperm.nodup_iff.mpr (List.nodup_cons.mpr ⟨hfresh, h.nodup⟩)
  · intro a' ha'
    by_cases haa : a' = a
    · subst haa
      exact ⟨_, Function.update_self _ _ _⟩
    by_cases hba : a' = b
    · subst hba
      exact ⟨_, (Function.update_of_ne haa _ _).trans (Function.update_self _ _ _)⟩
    obtain ⟨cd', hcd'⟩ := h.living a' ((List.mem_cons.mp (hperm.mem_iff.mp ha')).resolve_left hba)
    exact ⟨cd', (Function.update_of_ne haa _ _).trans ((Function.update_of_ne hba _ _).trans hcd')⟩
  · intro a' cd' hcd'
    rcases update_cases hcd' with ⟨rfl, hnew⟩ | ⟨haa, hcd'⟩
    · obtain rfl := Option.some.inj hnew
      exact .finishing (List.mem_append_right _ (List.mem_singleton_self _)) rfl
    rcases update_cases hcd' with ⟨rfl, hnew⟩ | ⟨hba, hold⟩
    · obtain rfl := Option.some.inj hnew
      exact .registered (List.mem_append_right _ (List.mem_singleton_self _)) rfl rfl
    cases h.tagged a' cd' hold with
    | registered hr hs hn => exact .registered (List.mem_append_left _ hr) hs hn
    | ready hq hs hn hk => exact .ready ((List.mem_erase_of_ne haa).mpr hq) hs hn hk
    | finishing hf hs => exact .finishing (List.mem_append_left _ hf) hs
    | finished hq hs => exact .finished ((List.mem_erase_of_ne haa).mpr hq) hs
  · intro a' cd' hcd' hs
    rcases update_cases hcd' with ⟨rfl, hnew⟩ | ⟨haa, hcd'⟩
    · obtain rfl := Option.some.inj hnew
      cases hs
    rcases update_cases hcd' with ⟨rfl, hnew⟩ | ⟨hba, hold⟩
    · obtain rfl := Option.some.inj hnew
      rw [Function.update_self]
    have hold' := h.waiting a' cd' hold hs
    have hmethod : cd'.method ≠ cd.method := by
      intro hm
      rw [hm, ← hslot] at hold'
      exact haa hold'
    exact hold'.trans (Function.update_of_ne hmethod _ _).symm
  · intro m
    by_cases hm : m = cd.method
    · subst hm
      refine ⟨{ method := cd.method, status := .startProcess }, ?_, rfl, rfl⟩
      rw [Function.update_self]
      exact (Function.update_of_ne hab _ _).trans (Function.update_self _ _ _)
    · obtain ⟨cd', hcd', hmethod, hs⟩ := h.slots m
      rw [Function.update_of_ne hm]
      have haa := h.slot_ne hcd hm
      have hba := h.slot_ne_of_none hb m
      exact ⟨cd', (Function.update_of_ne haa _ _).trans
        ((Function.update_of_ne hba _ _).trans hcd'), hmethod, hs⟩
  · intro m
    have hold := h.inOrder m
    show ofMethod kind m e.arrived = ofMethod kind m (e.processed ++ [request]) ++ _
    rw [ofMethod_append, hold]
    by_cases hm : m = cd.method
    · -- the request moves from the object to what is processed
      subst hm
      have hpending : e.pending a = [request] := by
        simp [Engine.pending, hcd, hrequest]
      rw [← hslot, hpending, ← hkind, ofMethod_singleton, hkind, Function.update_self]
      simp [Engine.pending, Engine.finish, Engine.create, hab]
    · have hne : kind request ≠ m := by
        rw [hkind]
        exact fun h => hm h.symm
      have haa := h.slot_ne hcd hm
      have hba := h.slot_ne_of_none hb m
      rw [ofMethod_singleton_ne hne, List.append_nil, Function.update_of_ne hm]
      simp [Engine.pending, Engine.finish, Engine.create, haa, hba]
  · show (e.answers ++ [(request, r.2)]).map Prod.fst = e.processed ++ [request]
    rw [List.map_append, h.answered]
    rfl

/-- An object that is done deletes itself. -/
theorem Serves.delete
    (h : Serves kind slot e)
    {a : Nat} {cd : CallObject μ ρ}
    (ha : a ∈ e.cq)
    (hcd : e.calls a = some cd)
    (hstatus : cd.status = .finish) :
    Serves kind slot { e with
      cq := e.cq.erase a
      calls := Function.update e.calls a none } := by
  have hslot : ∀ m, slot m ≠ a := by
    intro m hsa
    obtain ⟨cd', hcd', _, hs⟩ := h.slots m
    rw [hsa, hcd] at hcd'
    obtain rfl := Option.some.inj hcd'
    rw [hstatus] at hs
    cases hs
  have hperm : (a :: (e.requested ++ (e.finishing ++ e.cq.erase a))).Perm
      (e.requested ++ (e.finishing ++ e.cq)) := by
    rw [← List.append_assoc, ← List.append_assoc]
    exact List.perm_middle.symm.trans ((List.perm_cons_erase ha).symm.append_left _)
  have hnodup := List.nodup_cons.mp (hperm.nodup_iff.mpr h.nodup)
  constructor
  · exact hnodup.2
  · intro a' ha'
    have haa : a' ≠ a := by
      rintro rfl
      exact hnodup.1 ha'
    obtain ⟨cd', hcd'⟩ := h.living a' (hperm.mem_iff.mp (List.mem_cons_of_mem _ ha'))
    exact ⟨cd', (Function.update_of_ne haa _ _).trans hcd'⟩
  · intro a' cd' hcd'
    rcases update_cases hcd' with ⟨_, hnew⟩ | ⟨haa, hold⟩
    · cases hnew
    cases h.tagged a' cd' hold with
    | registered hr hs hn => exact .registered hr hs hn
    | ready hq hs hn hk => exact .ready ((List.mem_erase_of_ne haa).mpr hq) hs hn hk
    | finishing hf hs => exact .finishing hf hs
    | finished hq hs => exact .finished ((List.mem_erase_of_ne haa).mpr hq) hs
  · intro a' cd' hcd' hs
    rcases update_cases hcd' with ⟨_, hnew⟩ | ⟨_, hold⟩
    · cases hnew
    · exact h.waiting a' cd' hold hs
  · intro m
    obtain ⟨cd', hcd', hmethod, hs⟩ := h.slots m
    exact ⟨cd', (Function.update_of_ne (hslot m) _ _).trans hcd', hmethod, hs⟩
  · intro m
    rw [h.inOrder m]
    simp [Engine.pending, hslot m]
  · exact h.answered

theorem Serves.own
    (h : Serves kind slot e)
    (s : σ) :
    Serves kind slot { e with state := s } where
  nodup := h.nodup
  living := h.living
  tagged := by
    intro a cd hcd
    cases h.tagged a cd hcd with
    | registered hr hs hn => exact .registered hr hs hn
    | ready hq hs hn hk => exact .ready hq hs hn hk
    | finishing hf hs => exact .finishing hf hs
    | finished hq hs => exact .finished hq hs
  waiting := h.waiting
  slots := h.slots
  inOrder := h.inOrder
  answered := h.answered

omit [DecidableEq μ] in
/-- What one round of the loop did, when it went through. -/
theorem next_eq_ok
    {e' : Engine μ ρ σ α} {a b : Nat} {cd : CallObject μ ρ}
    (hcd : e.calls a = some cd)
    (hstatus : cd.status ≠ .create)
    (h : e.next process a b = .ok e') :
    (∃ request r, cd.status = .startProcess ∧ cd.request = some request ∧
        process request e.state = .ok r ∧
        e' = (({ e with cq := e.cq.erase a } : Engine μ ρ σ α).create cd.method b).finish
          a cd request r) ∨
      cd.status = .finish ∧
        e' = { e with cq := e.cq.erase a, calls := Function.update e.calls a none } := by
  cases hs : cd.status with
  | create => exact absurd hs hstatus
  | startProcess =>
      left
      simp only [Engine.next, Engine.proceed, hcd, hs, Engine.create] at h
      cases hrequest : cd.request with
      | none =>
          rw [hrequest] at h
          cases h
      | some request =>
          rw [hrequest] at h
          dsimp only at h
          cases hprocess : process request e.state with
          | error thrown =>
              rw [hprocess] at h
              cases h
          | ok r =>
              rw [hprocess] at h
              exact ⟨request, r, rfl, rfl, hprocess, (Except.ok.inj h).symm⟩
  | finish =>
      right
      simp only [Engine.next, Engine.proceed, hcd, hs] at h
      exact ⟨rfl, (Except.ok.inj h).symm⟩

/-- A queued object is not new. -/
theorem Serves.next_eq_ok
    (h : Serves kind slot e)
    {e' : Engine μ ρ σ α} {a b : Nat}
    (ha : a ∈ e.cq)
    (hnext : e.next process a b = .ok e') :
    ∃ cd, e.calls a = some cd ∧
      ((∃ request r, cd.status = .startProcess ∧ cd.request = some request ∧
          process request e.state = .ok r ∧
          e' = (({ e with cq := e.cq.erase a } : Engine μ ρ σ α).create cd.method b).finish
            a cd request r) ∨
        cd.status = .finish ∧
          e' = { e with cq := e.cq.erase a, calls := Function.update e.calls a none }) := by
  obtain ⟨cd, hcd⟩ := h.living a
    (List.mem_append_right _ (List.mem_append_right _ ha))
  refine ⟨cd, hcd, CompletionQueues.next_eq_ok hcd ?_ hnext⟩
  rcases h.of_cq ha hcd with ⟨hstatus, _⟩ | hstatus
  · rw [hstatus]
    exact Status.noConfusion
  · rw [hstatus]
    exact Status.noConfusion

/-- Every step keeps the invariant, perhaps with another object waiting for a method. -/
theorem serves_step
    (h : Serves kind slot e)
    {e' : Engine μ ρ σ α} {act : Action ρ}
    (hstep : Step kind process owner e act e') :
    ∃ slot', Serves kind slot' e' := by
  cases hstep with
  | arrive ha hcd hkind =>
      exact ⟨slot, h.arrive ha hcd hkind⟩
  | sent ha =>
      exact ⟨slot, h.sent ha⟩
  | next ha hb hnext =>
      obtain ⟨cd, hcd, ⟨request, r, hstatus, hrequest, _, rfl⟩ | ⟨hstatus, rfl⟩⟩ :=
        h.next_eq_ok ha hnext
      · exact ⟨_, h.handle ha hb hcd hstatus hrequest r⟩
      · exact ⟨slot, h.delete ha hcd hstatus⟩
  | own _ =>
      exact ⟨slot, h.own _⟩

end Preservation

section ServerRuns

variable {init : Engine μ ρ σ α → Prop}

/-- The invariant of all runs. -/
theorem serves_of_reachable
    (hinit : ∀ e, init e → ∃ slot, Serves kind slot e)
    {e : Engine μ ρ σ α}
    (h : Reachable init (Step kind process owner) e) :
    ∃ slot, Serves kind slot e := by
  refine h.invariant hinit ?_
  rintro e act e' ⟨slot, hserves⟩ hstep
  exact serves_step hserves hstep

/-- What the processing and the owner keep about the state and the requests processed
so far holds along every run. -/
theorem state_of_reachable
    (Inv : σ → List ρ → List (ρ × α) → Prop)
    (hserves : ∀ e, init e → ∃ slot, Serves kind slot e)
    (hinit : ∀ e, init e → Inv e.state e.processed e.answers)
    (hprocess : ∀ s rs as r result, Inv s rs as → process r s = .ok result →
      Inv result.1 (rs ++ [r]) (as ++ [(r, result.2)]))
    (howner : ∀ s s' rs as, Inv s rs as → owner s s' → Inv s' rs as)
    {e : Engine μ ρ σ α}
    (h : Reachable init (Step kind process owner) e) :
    Inv e.state e.processed e.answers := by
  induction h with
  | start h =>
      exact hinit _ h
  | next run hstep ih =>
      obtain ⟨slot, hs⟩ := serves_of_reachable hserves run
      cases hstep with
      | arrive _ _ _ => exact ih
      | sent _ => exact ih
      | next ha hb hnext =>
          obtain ⟨cd, _, ⟨request, r, _, _, hr, rfl⟩ | ⟨_, rfl⟩⟩ := hs.next_eq_ok ha hnext
          · exact hprocess _ _ _ _ _ ih hr
          · exact ih
      | own howns => exact howner _ _ _ _ ih howns

end ServerRuns

end Invariant

end CompletionQueues
