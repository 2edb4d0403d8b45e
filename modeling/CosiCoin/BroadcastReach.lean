import CosiCoin.MessageQueues
import CosiCoin.SettingsModel

/-!
# COSICOIN: whom a broadcast reaches

A client is built from the settings, or copied or moved from another client;
every constructor starts the threads anew.  `Broadcast` loops over all addresses
with an `int`, `startThreads_` over as many as the number of addresses leaves in
a `uint8_t`.  Up to 255 validators have their queue and their thread whatever
the client does later; from 256 on some address has none, and its queue is a
null pointer.
-/

namespace CosiCoin

open LabelledRuns

section Positions

variable {α : Type} [DecidableEq α]

/-- In a list without repetition an element stands at one position. -/
theorem filter_zipIdx_eq
    {l : List α} {i : Nat} {r : α}
    (hl : l.Nodup)
    (hr : l[i]? = some r)
    (k : Nat) :
    (l.zipIdx k).filter (fun e => e.1 = r) = [(r, k + i)] := by
  induction l generalizing i k with
  | nil => simp at hr
  | cons a l ih =>
      obtain ⟨ha, hl'⟩ := List.nodup_cons.mp hl
      rw [List.zipIdx_cons]
      cases i with
      | zero =>
          obtain rfl : a = r := by simpa using hr
          rw [List.filter_cons_of_pos (by simp)]
          have hrest : (l.zipIdx (k + 1)).filter (fun e => e.1 = a) = [] := by
            rw [List.filter_eq_nil_iff]
            intro e he
            have hmem := List.fst_mem_of_mem_zipIdx he
            simp only [decide_eq_true_eq]
            rintro rfl
            exact ha hmem
          rw [hrest, Nat.add_zero]
      | succ i =>
          rw [List.getElem?_cons_succ] at hr
          have hne : a ≠ r := by
            rintro rfl
            exact ha (List.mem_of_getElem? hr)
          rw [List.filter_cons_of_neg (by simpa using hne), ih hl' hr (k + 1)]
          have hpos : k + 1 + i = k + (i + 1) := by omega
          rw [hpos]

end Positions

namespace ValidatorClient

/-- The constructor of `ValidatorClientImpl`. -/
def ofSettings (s : Settings) : ValidatorClient :=
  new s.getValidatorAdresses s.getLeaderAddress.1

/--
The client made by the copy constructor, and likewise the one made by the move
constructor: the addresses are taken over, queues and threads are new.
-/
def copy (c : ValidatorClient) : ValidatorClient :=
  new c.servers c.leader

/-- Every server has a queue and a thread of its own, and a broadcast enters each queue once. -/
structure Serves (c : ValidatorClient) : Prop where
  lines : ∀ r ∈ c.servers, ∃ q, c.messageQueues.lookup r = some q ∧
    (∀ r' ∈ c.servers, c.messageQueues.lookup r' = some q → r' = r) ∧
    (c.threadPool.filter fun t => t.serverAddress = r).map SendThread.mq = [q]
  broadcasts : ∀ m, ∃ c', c.broadcast m = some c' ∧
    ∀ r ∈ c.servers, c'.queued r = c.queued r ++ [m]

/-- What can happen to a client. -/
inductive ClientAction where
  | call (c : ClientCall)
  | copy
  | pop (i : Nat)
  | proceed (i : Nat)

/-- One step of a client; `copy` goes on with the copy. -/
inductive ClientStep : ValidatorClient → ClientAction → ValidatorClient → Prop
  | broadcast
      {c c' : ValidatorClient} (m : Message)
      (h : c.broadcast m = some c') :
      ClientStep c (.call (.broadcast m)) c'
  | sendToLeader
      {c c' : ValidatorClient} (m : Message)
      (h : c.sendToLeader m = some c') :
      ClientStep c (.call (.sendToLeader m)) c'
  | copy
      (c : ValidatorClient) :
      ClientStep c .copy c.copy
  | pop
      {c c' : ValidatorClient} (i : Nat)
      (h : c.pop i = some c') :
      ClientStep c (.pop i) c'
  | sent
      {c : ValidatorClient} (i : Nat) (t : SendThread) (m : Message)
      (ht : c.threadPool[i]? = some t)
      (hstate : t.state = .sending m) :
      ClientStep c (.proceed i) (c.setThread i t .returning)
  | returned
      {c : ValidatorClient} (i : Nat) (t : SendThread)
      (ht : c.threadPool[i]? = some t)
      (hstate : t.state = .returning) :
      ClientStep c (.proceed i) (c.setThread i t .waiting)

/-- The clients that come from some settings. -/
def ReachableFrom (s : Settings) : ValidatorClient → Prop :=
  Reachable (fun c => c = ofSettings s) ClientStep

variable {addresses : List Str} {lead : Str}

theorem Wired.serves
    {c : ValidatorClient}
    (h : c.Wired addresses lead) :
    c.Serves := by
  refine ⟨?_, ?_⟩
  · intro r hr
    rw [h.servers] at hr ⊢
    obtain ⟨i, hi⟩ := List.mem_iff_getElem?.mp hr
    refine ⟨i, h.queue i r hi, ?_, ?_⟩
    · intro r' hr' hlookup
      obtain ⟨j, hj⟩ := List.mem_iff_getElem?.mp hr'
      rw [h.queue j r' hj] at hlookup
      obtain rfl := Option.some.inj hlookup
      exact Option.some.inj (hj.symm.trans hi)
    · have hfilter := filter_zipIdx_eq h.nodup hi 0
      rw [← h.threads, List.filter_map] at hfilter
      have hqueues := congrArg (List.map Prod.snd) hfilter
      rw [List.map_map, Nat.zero_add] at hqueues
      exact hqueues
  · intro m
    obtain ⟨c', hfold, _, _, hqueued⟩ := Wired.foldlM_push m h h.nodup fun r hr => hr
    rw [ValidatorClient.broadcast, h.servers]
    refine ⟨c', hfold, ?_⟩
    intro r hr
    rw [hqueued r hr, if_pos hr]

/-- A step of a wired client, or a copy of it, leaves a wired client. -/
theorem Wired.step
    {c c' : ValidatorClient} {a : ClientAction}
    (hcount : addresses.length ≤ 255)
    (h : c.Wired addresses lead)
    (hstep : ClientStep c a c') :
    c'.Wired addresses lead := by
  cases hstep with
  | broadcast m hcall =>
      obtain ⟨c₁, hc₁, hwired, _⟩ := h.broadcast m
      rwa [Option.some.inj (hcall.symm.trans hc₁)]
  | sendToLeader m hcall =>
      by_cases hlead : lead ∈ addresses
      · obtain ⟨c₁, hc₁, hwired, _⟩ := h.sendToLeader hlead m
        rwa [Option.some.inj (hcall.symm.trans hc₁)]
      · rw [ValidatorClient.sendToLeader, ValidatorClient.push, h.leader, h.others lead hlead]
          at hcall
        cases hcall
  | copy =>
      rw [ValidatorClient.copy, h.servers, h.leader]
      exact wired_new hcount h.nodup
  | pop i hpop => exact (h.pop hpop).1
  | sent i t m ht hstate => exact h.setThread ht .returning
  | returned i t ht hstate => exact h.setThread ht .waiting

/-- From 256 addresses on, one of them gets no queue. -/
theorem exists_lookup_new_eq_none
    (hcount : 256 ≤ addresses.length)
    (hnodup : addresses.Nodup)
    (lead : Str) :
    ∃ r ∈ addresses, (new addresses lead).messageQueues.lookup r = none := by
  set k := (UInt8.ofNat addresses.length).toNat with hk
  have hlt : k < 256 := UInt8.toNat_lt _
  have hpos : k < addresses.length := by omega
  refine ⟨addresses.get ⟨k, hpos⟩, List.get_mem _ _, ?_⟩
  have hfst : ((addresses.take k).zipIdx.map Prod.fst) = addresses.take k :=
    List.zipIdx_map_fst 0 _
  obtain ⟨_, _, _, _, hothers⟩ := foldl_startThread
    (c := { servers := addresses, leader := lead })
    (hfst.symm ▸ hnodup.sublist (List.take_sublist k addresses))
  -- the address at position `k` stands behind those that are served
  have hnot : addresses.get ⟨k, hpos⟩ ∉ (addresses.take k).zipIdx.map Prod.fst := by
    rw [hfst]
    intro hmem
    obtain ⟨j, hj, heq⟩ := List.mem_take_iff_getElem.mp hmem
    have hjk := (List.Nodup.getElem_inj_iff hnodup).mp heq
    omega
  exact (hothers _ hnot).trans (AList.lookup_empty _)

/-- A client with more than 255 servers leaves one of them without a queue. -/
theorem not_serves_new
    (hcount : 256 ≤ addresses.length)
    (hnodup : addresses.Nodup)
    (lead : Str) :
    ¬ ((new addresses lead).servers = addresses ∧ (new addresses lead).Serves) := by
  rintro ⟨hservers, hserves⟩
  obtain ⟨r, hr, hnone⟩ := exists_lookup_new_eq_none hcount hnodup lead
  obtain ⟨q, hq, _⟩ := hserves.lines r (hservers.symm ▸ hr)
  rw [hnone] at hq
  cases hq

/--
For settings with different addresses, every client that comes from them serves
all validators in every state exactly when there are at most 255 of them.
-/
theorem broadcast_reaches_all_iff
    (s : Settings)
    (hdistinct : s.getValidatorAdresses.Nodup) :
    (∀ c, ReachableFrom s c → c.servers = s.getValidatorAdresses ∧ c.Serves) ↔
      s.validators.size ≤ 255 := by
  have hlength : s.getValidatorAdresses.length = s.validators.size := by
    rw [Settings.getValidatorAdresses, List.length_map, OrderedMaps.OrderedMap.length_values]
  constructor
  · intro h
    by_contra hcount
    have hmany : 256 ≤ s.getValidatorAdresses.length := by omega
    exact not_serves_new hmany hdistinct _ (h (ofSettings s) (Reachable.start rfl))
  · intro hcount c hc
    have hfew : s.getValidatorAdresses.length ≤ 255 := by omega
    have hwired : c.Wired s.getValidatorAdresses s.getLeaderAddress.1 := by
      refine hc.invariant ?_ ?_
      · rintro _ rfl
        exact wired_new hfew hdistinct
      · intro c a c' h hstep
        exact h.step hfew hstep
    exact ⟨hwired.servers, hwired.serves⟩

/-- The validators with the ids below `k`, with addresses of different lengths. -/
def numberedValidators (k : Nat) : Settings :=
  Settings.new ((List.range k).reverse.map fun i =>
    { id := .ofNat i, address := List.replicate i 97 }) 0 [] 0 0

/-- Three validators are reached by every client built from their settings. -/
theorem broadcast_reaches_three :
    (numberedValidators 3).getValidatorAdresses.Nodup ∧
      ∀ c, ReachableFrom (numberedValidators 3) c →
        c.servers = (numberedValidators 3).getValidatorAdresses ∧ c.Serves := by
  have hdistinct : (numberedValidators 3).getValidatorAdresses.Nodup := by
    decide
  refine ⟨hdistinct, ?_⟩
  exact (broadcast_reaches_all_iff (numberedValidators 3) hdistinct).mpr (by decide)

/-- The client of 256 validators has an address without a queue. -/
theorem broadcast_misses_validator :
    (numberedValidators 256).getValidatorAdresses.Nodup ∧
      ¬ ∀ c, ReachableFrom (numberedValidators 256) c →
        c.servers = (numberedValidators 256).getValidatorAdresses ∧ c.Serves := by
  have hlengths : (numberedValidators 256).getValidatorAdresses.map List.length =
      List.range' 2 256 := by
    decide +kernel
  have hnodup : (numberedValidators 256).getValidatorAdresses.Nodup := by
    apply List.Nodup.of_map List.length
    rw [hlengths]
    exact List.nodup_range'
  have hcount : 256 ≤ (numberedValidators 256).getValidatorAdresses.length := by
    rw [← List.length_map List.length, hlengths, List.length_range']
  refine ⟨hnodup, fun h => ?_⟩
  exact not_serves_new hcount hnodup _ (h _ (Reachable.start rfl))

end ValidatorClient

end CosiCoin
