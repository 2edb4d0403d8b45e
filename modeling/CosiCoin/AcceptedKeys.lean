import CosiCoin.AsyncBroadcast
import CosiCoin.ReadyDiscipline

/-!
# COSICOIN: the keys recorded for accepted hashes

`broadcastRound` appends to `accepted_blocks_` what it reads through a reference to
a key that it has just erased, so the appended key need not be the accepted
hash.  A run of a node appends one key for each hash it accepts
(`NodeRun.appends`), a task accepts at most one (`runTask_accepts`), and where the
memory of erased keys is kept the appended keys are the accepted hashes
(`recordedKeys_of_kept`).
-/

namespace CosiCoin

open CausalLog Node

section Hashes

/-- The accepted hashes among some events. -/
def deliveredHashes (evs : List NodeEvent) : List Str :=
  evs.filterMap fun
    | .delivered h => some h
    | _ => none

theorem mem_deliveredHashes
    {h : Str} {evs : List NodeEvent} :
    h ∈ deliveredHashes evs ↔ .delivered h ∈ evs := by
  constructor
  · intro hmem
    obtain ⟨e, he, heq⟩ := List.mem_filterMap.mp hmem
    cases e with
    | delivered k =>
        obtain rfl := Option.some.inj heq
        exact he
    | proposed b => cases heq
    | counted m => cases heq
    | broadcast m => cases heq
    | restarted => cases heq
  · intro hmem
    exact List.mem_filterMap.mpr ⟨.delivered h, hmem, rfl⟩

theorem deliveredHashes_append
    (evs evs' : List NodeEvent) :
    deliveredHashes (evs ++ evs') = deliveredHashes evs ++ deliveredHashes evs' :=
  List.filterMap_append

theorem deliveredHashes_reverse
    (evs : List NodeEvent) :
    deliveredHashes evs.reverse = (deliveredHashes evs).reverse :=
  List.filterMap_reverse

theorem deliveredHashes_of_silent
    {evs : List NodeEvent}
    (h : ∀ k, .delivered k ∉ evs) :
    deliveredHashes evs = [] :=
  List.eq_nil_iff_forall_not_mem.mpr fun k hk => h k (mem_deliveredHashes.mp hk)

end Hashes

section Recording

/-- What is read for some hashes, one after the other, once they are erased. -/
def Node.recordedKeys (nd : Node) (hashes : List Str) : List Str :=
  hashes.mapIdx fun k h => nd.erasedRead (nd.erasedReads + k) h

@[simp] theorem length_recordedKeys
    (nd : Node) (hashes : List Str) :
    (nd.recordedKeys hashes).length = hashes.length :=
  List.length_mapIdx

/-- Where the memory of the erased keys is kept the hashes themselves are read. -/
theorem recordedKeys_of_kept
    {nd : Node}
    (h : nd.erasedRead = keptRead)
    (hashes : List Str) :
    nd.recordedKeys hashes = hashes := by
  refine List.ext_getElem (length_recordedKeys nd hashes) fun k _ _ => ?_
  simp [recordedKeys, h, keptRead]

/-- What is read for the hashes accepted in the events is appended to `accepted_blocks_`. -/
structure Node.Appends (nd : Node) (evs : List NodeEvent) (nd' : Node) : Prop where
  accepted : nd'.acceptedBlocks = nd.acceptedBlocks ++ nd.recordedKeys (deliveredHashes evs)
  reads : nd'.erasedReads = nd.erasedReads + (deliveredHashes evs).length
  erasedRead : nd'.erasedRead = nd.erasedRead

/-- Nothing is accepted, and the list stays. -/
theorem Node.Appends.of_eq
    {nd nd' : Node} {evs : List NodeEvent}
    (haccepted : nd'.acceptedBlocks = nd.acceptedBlocks)
    (hreads : nd'.erasedReads = nd.erasedReads)
    (hread : nd'.erasedRead = nd.erasedRead)
    (hnone : deliveredHashes evs = []) :
    nd.Appends evs nd' := by
  refine ⟨?_, ?_, hread⟩
  · rw [haccepted, hnone]
    exact (List.append_nil _).symm
  · rw [hreads, hnone]
    rfl

theorem Node.Appends.refl
    (nd : Node) :
    nd.Appends [] nd :=
  .of_eq rfl rfl rfl rfl

theorem Node.Appends.append
    {nd nd₁ nd₂ : Node} {ev₁ ev₂ : List NodeEvent}
    (h₁ : nd.Appends ev₁ nd₁)
    (h₂ : nd₁.Appends ev₂ nd₂) :
    nd.Appends (ev₁ ++ ev₂) nd₂ := by
  refine ⟨?_, ?_, h₂.erasedRead.trans h₁.erasedRead⟩
  · have hlater : nd₁.recordedKeys (deliveredHashes ev₂) =
        (deliveredHashes ev₂).mapIdx fun k h =>
          nd.erasedRead (nd.erasedReads + (k + (deliveredHashes ev₁).length)) h := by
      rw [recordedKeys, h₁.reads, h₁.erasedRead]
      simp only [Nat.add_comm, Nat.add_left_comm]
    rw [h₂.accepted, h₁.accepted, hlater, List.append_assoc, deliveredHashes_append]
    simp only [recordedKeys, List.mapIdx_append]
  · rw [h₂.reads, h₁.reads, deliveredHashes_append, List.length_append, Nat.add_assoc]

variable [Platform]

theorem NodeStep.appends
    {nd nd' : Node} {ev : List NodeEvent}
    (h : NodeStep nd ev nd') :
    nd.Appends ev nd' := by
  cases h with
  | quiet hq hkept =>
      exact .of_eq hkept.acceptedBlocks hkept.erasedReads hq.erasedRead rfl
  | count m =>
      rw [countMessage_eq]
      exact .of_eq rfl rfl rfl rfl
  | echo m hsend hm =>
      exact .of_eq rfl rfl rfl rfl
  | ready m h round hvotes hsent hm =>
      exact .of_eq rfl rfl rfl rfl
  | deliver h hvotes =>
      exact ⟨rfl, rfl, rfl⟩
  | restart =>
      exact .of_eq rfl rfl rfl rfl

/-- A run appends one key for each hash it accepts. -/
theorem NodeRun.appends
    {nd nd' : Node} {evs : List NodeEvent}
    (h : NodeRun nd evs nd') :
    nd.Appends evs nd' := by
  induction h with
  | refl nd => exact .refl nd
  | head h rest ih => exact h.appends.append ih

end Recording

section Tasks

variable [Platform]

/-- Receiving messages accepts nothing. -/
theorem recvMessages_silent
    {msgs : List Message} :
    ∀ {nd nd' : Node} {evs : List NodeEvent}, recvMessages msgs nd = .ok (nd', evs) →
      ∀ k, .delivered k ∉ evs := by
  induction msgs with
  | nil =>
      intro nd nd' evs h k
      obtain ⟨rfl, rfl⟩ := Prod.mk.inj (Except.ok.inj h)
      simp
  | cons m msgs ih =>
      intro nd nd' evs h k
      obtain ⟨⟨nd₁, ev₁⟩, hm, h⟩ := bind_eq_ok h
      obtain ⟨⟨nd₂, ev₂⟩, hrest, h⟩ := bind_eq_ok h
      obtain ⟨rfl, rfl⟩ := Prod.mk.inj (Except.ok.inj h)
      have hlater := ih hrest k
      obtain ⟨_, _, _, _, _, _, _, ⟨_, rfl, _⟩ | ⟨_, _, rfl, _⟩⟩ := recvMessage_eq_ok hm
      · simpa using hlater
      · simpa using hlater

/-- A task accepts at most one hash. -/
theorem runTask_accepts
    {nd nd' : Node} {msgs : List Message} {evs : List NodeEvent}
    (h : nd.RunTask msgs nd' evs) :
    deliveredHashes evs = [] ∨ ∃ k, deliveredHashes evs = [k] := by
  obtain ⟨nd₁, ev₁, nd₂, ev₂, hrecv, _, hround, rfl⟩ := h
  rw [deliveredHashes_append, deliveredHashes_of_silent (recvMessages_silent hrecv),
    List.nil_append]
  obtain ⟨ev, hsilent, rfl | ⟨k, _, rfl⟩⟩ := broadcastRound_endsReady hround
  · exact Or.inl (deliveredHashes_of_silent hsilent)
  · right
    refine ⟨k, ?_⟩
    rw [deliveredHashes_append, deliveredHashes_of_silent hsilent]
    rfl

/-- The accepted hash is appended if it is what the next read of an erased key gives. -/
theorem runTask_appends_of_kept
    {nd nd' : Node} {msgs : List Message} {evs : List NodeEvent}
    (h : nd.RunTask msgs nd' evs)
    (hread : ∀ k, .delivered k ∈ evs → nd.erasedRead nd.erasedReads k = k) :
    nd'.acceptedBlocks = nd.acceptedBlocks ++ deliveredHashes evs := by
  rw [(runTask_nodeRun h).1.appends.accepted]
  rcases runTask_accepts h with hnone | ⟨k, hone⟩
  · rw [hnone]
    rfl
  · have hk := hread k (mem_deliveredHashes.mp (by rw [hone]; exact List.mem_singleton.mpr rfl))
    rw [hone]
    simpa [recordedKeys] using hk

end Tasks

section Systems

/-- Every node goes on with some events and appends what it reads for the hashes in them. -/
def Advances (s s' : SystemState) : Prop :=
  ∀ i, ∃ evs, (s.nodes i).Appends evs (s'.nodes i) ∧
    history i s'.log = evs.reverse ++ history i s.log

theorem Advances.refl
    (s : SystemState) :
    Advances s s :=
  fun _ => ⟨[], .refl _, rfl⟩

theorem advances_record
    {s : SystemState} {j : UInt16} {nd : Node} {evs : List NodeEvent}
    (h : (s.nodes j).Appends evs nd) :
    Advances s (s.record j nd evs) := by
  intro i
  by_cases hi : i = j
  · subst hi
    refine ⟨evs, ?_, record_history_self s i nd evs⟩
    simpa [SystemState.record] using h
  · refine ⟨[], ?_, record_history_of_ne s hi nd evs⟩
    have hsame : (s.record j nd evs).nodes i = s.nodes i := Function.update_of_ne hi _ _
    rw [hsame]
    exact .refl _

/-- What is in the log stays there. -/
theorem Advances.log_subset
    {s s' : SystemState}
    (h : Advances s s') :
    s.log ⊆ s'.log := by
  rintro ⟨i, e⟩ he
  obtain ⟨evs, _, hhist⟩ := h i
  rw [← mem_history, hhist]
  exact List.mem_append_right _ (mem_history.mpr he)

variable [Platform]

theorem SystemStep.advances
    {c : Committee} {s s' : SystemState} {a : SystemAction}
    (h : SystemStep c s a s') :
    Advances s s' := by
  rcases systemStep_nodeRun h with ⟨i, nd, evs, _, hrun, rfl, _⟩ | hpropose
  · exact advances_record hrun.appends
  · obtain ⟨b, nd, evs, _, hprop, rfl⟩ := hpropose
    obtain ⟨rfl, m, _, rfl⟩ := propose_eq_ok hprop
    exact advances_record (.of_eq rfl rfl rfl rfl)

end Systems

end CosiCoin
