import CosiCoin.AgreedBlockApplication
import CosiCoin.LedgerProvenance
import CosiCoin.SpentCoinRemoval

/-!
# COSICOIN: the ledger after a run

A transaction takes coins from the list of its sender, and `OnAgreeBlk` stores
none of the outputs.  So the list of a wallet is at any time what is left of the
coins `InitializeCoins` gave to it: those whose outpoint is an input of no
applied block.  A block that is applied twice takes nothing the second time, and
each outpoint that is spent costs the system one coin, whatever the outputs say
(`ledger_of_inOrder`).

The runs are those in which the inputs of each applied transaction stand in
decreasing order of position, so that `OnAgreeBlk` erases the coins it means to.
-/

namespace CosiCoin

open Validator PositionalErase LabelledRuns

section Application

variable {l : UTXOlist} {inputs : List Input}

/-- In decreasing order the coins the inputs refer to are erased, and no others. -/
theorem erasePositions_spentPositions
    (hl : l.outpoints.Nodup)
    (hdesc : (spentPositions l inputs).Pairwise (· > ·)) :
    erasePositions l (spentPositions l inputs) = l.filter fun u => u.outpoint ∉ inputs := by
  rw [erasePositions_eq_filter hl.of_map hdesc]
  refine List.filter_congr ?_
  intro u hu
  rw [decide_eq_decide, mem_recorded_spentPositions hl]
  exact not_congr (and_iff_right hu)

/-- Every input that is found takes a coin from the live list. -/
theorem length_spentPositions_le
    {ulist : UTXOlist} {outputs : List Output} {inputs : List Input} :
    ∀ {i : Nat} {live live' : UTXOlist}, spendLoop ulist outputs inputs i live = some live' →
      (spentPositions ulist inputs).length ≤ live.length := by
  induction inputs with
  | nil =>
      intro i live live' _
      exact Nat.zero_le _
  | cons cur rest ih =>
      intro i live live' h
      cases hindex : ulist.index cur with
      | none =>
          rw [spendLoop_skip hindex] at h
          rw [spentPositions, List.filterMap_cons_none hindex]
          exact ih h
      | some idx =>
          rw [spendLoop_found hindex] at h
          split_ifs at h with hbound
          have hrest := ih h
          rw [List.length_eraseIdx_of_lt hbound.2] at hrest
          rw [spentPositions, List.filterMap_cons_some hindex, List.length_cons]
          change (spentPositions ulist rest).length + 1 ≤ live.length
          omega

/-- With one coin at most in the list of the sender there is no order to keep. -/
theorem spentPositions_pairwise_of_short
    {m m' : UtxoMap} {t : Transaction}
    (h : agreeTransaction m t = some m')
    (hshort : (UtxoMap.get m t.walletId).length ≤ 1) :
    (spentPositions (UtxoMap.get m t.walletId) t.inputs).Pairwise (· > ·) := by
  obtain ⟨live, hlive, _⟩ := Option.map_eq_some_iff.mp h
  have hle := (length_spentPositions_le hlive).trans hshort
  cases hps : spentPositions (UtxoMap.get m t.walletId) t.inputs with
  | nil =>
      exact List.Pairwise.nil
  | cons p ps =>
      rw [hps, List.length_cons] at hle
      rw [List.length_eq_zero_iff.mp (by omega : ps.length = 0)]
      exact List.pairwise_singleton _ p

/-- The inputs of the transaction name coins of its sender only. -/
def Transaction.NamesOwn (t : Transaction) (m : UtxoMap) : Prop :=
  ∀ i ∈ t.inputs, ∀ w, i ∈ (UtxoMap.get m w).outpoints → w = t.walletId

theorem agreeTransaction_eq_filter
    {m m' : UtxoMap} {t : Transaction}
    (h : agreeTransaction m t = some m')
    (hm : ∀ w, (UtxoMap.get m w).outpoints.Nodup)
    (hdesc : (spentPositions (UtxoMap.get m t.walletId) t.inputs).Pairwise (· > ·))
    (hown : t.NamesOwn m)
    (w : UInt32) :
    UtxoMap.get m' w = (UtxoMap.get m w).filter fun u => u.outpoint ∉ t.inputs := by
  rw [agreeTransaction_eq_some h]
  by_cases hw : w = t.walletId
  · subst hw
    rw [UtxoMap.get_insert_self, erasePositions_spentPositions (hm _) hdesc]
  · rw [UtxoMap.get_insert_of_ne _ _ hw, eq_comm, List.filter_eq_self]
    intro u hu
    rw [decide_eq_true_iff]
    intro hi
    exact hw (hown _ hi w (List.mem_map_of_mem hu))

/--
At its turn, on whatever is left of the lists, the transaction erases in
decreasing order of position.
-/
def Transaction.ErasesDown (t : Transaction) (m : UtxoMap) : Prop :=
  ∀ m₁ m₂ : UtxoMap, (∀ w, (UtxoMap.get m₁ w).Sublist (UtxoMap.get m w)) →
    agreeTransaction m₁ t = some m₂ →
    (spentPositions (UtxoMap.get m₁ t.walletId) t.inputs).Pairwise (· > ·)

theorem erasesDown_of_pairwise
    {m : UtxoMap} {t : Transaction}
    (hl : (UtxoMap.get m t.walletId).outpoints.Nodup)
    (hdesc : (spentPositions (UtxoMap.get m t.walletId) t.inputs).Pairwise (· > ·)) :
    t.ErasesDown m := by
  intro m₁ m₂ hsub _
  exact spentPositions_pairwise_gt_of_sublist (hsub t.walletId) hl hdesc

theorem erasesDown_of_short
    {m : UtxoMap} {t : Transaction}
    (hshort : (UtxoMap.get m t.walletId).length ≤ 1) :
    t.ErasesDown m := by
  intro m₁ m₂ hsub h
  exact spentPositions_pairwise_of_short h ((hsub t.walletId).length_le.trans hshort)

end Application

section FirstCoins

variable (walletsIds : List UInt32) (coins : UInt64)

/-- The loop of `InitializeCoins` gives each wallet in turn one coin. -/
theorem initLoop_outputs
    (ids : List UInt32) :
    ∀ (initTX : UInt32) (m : UtxoMap) (l : UTXOlist),
      (initLoop coins ids initTX m l).2.map UTXO.output =
        l.map UTXO.output ++ ids.map fun id => ⟨coins, id⟩ := by
  induction ids with
  | nil =>
      intro initTX m l
      simp [initLoop]
  | cons id ids ih =>
      intro initTX m l
      unfold initLoop
      rw [ih]
      simp

theorem firstCoins_outputs :
    (Validator.firstCoins { walletsIds := walletsIds } coins).map UTXO.output =
      walletsIds.map fun id => ⟨coins, id⟩ :=
  initLoop_outputs coins walletsIds 0 ∅ []

theorem firstCoins_length :
    (Validator.firstCoins { walletsIds := walletsIds } coins).length = walletsIds.length := by
  rw [← List.length_map (f := UTXO.output), firstCoins_outputs, List.length_map]

theorem value_of_mem_firstCoins
    {u : UTXO}
    (h : u ∈ Validator.firstCoins { walletsIds := walletsIds } coins) :
    u.output.value = coins := by
  have hmem : u.output ∈ walletsIds.map fun id => (⟨coins, id⟩ : Output) := by
    rw [← firstCoins_outputs]
    exact List.mem_map_of_mem h
  obtain ⟨id, _, hid⟩ := List.mem_map.mp hmem
  rw [← hid]

theorem firstCoins_outpoints_nodup
    (hlen : walletsIds.length ≤ 2 ^ 32) :
    (Validator.firstCoins { walletsIds := walletsIds } coins).outpoints.Nodup := by
  have hids := firstCoins_transactionIds { walletsIds := walletsIds } coins
  have hnodup : ((Validator.firstCoins { walletsIds := walletsIds } coins).map
      UTXO.transactionId).Nodup := by
    rw [hids]
    exact nodup_numbersFrom (by simpa using hlen)
  refine List.Nodup.of_map Input.txID ?_
  rw [UTXOlist.outpoints, List.map_map]
  exact hnodup

end FirstCoins

section Totals

namespace UtxoMap

theorem totalValue_eq_all
    (m : UtxoMap) :
    totalValue m = UTXOlist.totalValue (all m) := by
  unfold totalValue all
  induction m.entries with
  | nil =>
      rfl
  | cons e entries ih =>
      rw [List.map_cons, List.sum_cons, ih, List.flatMap_cons]
      simp only [UTXOlist.totalValue, List.map_append, List.sum_append]

/-- Coins that are kept under their receivers stand in the list of one wallet. -/
theorem nodup_all
    {m : UtxoMap}
    (hm : ∀ w, (UtxoMap.get m w).Nodup)
    (hreceiver : UnderReceiver m) :
    (all m).Nodup := by
  have hget : ∀ e ∈ m.entries, e.2 = UtxoMap.get m e.1 := fun _ he => (get_eq_of_mem he).symm
  rw [all, List.nodup_flatMap]
  refine ⟨?_, ?_⟩
  · intro e he
    rw [hget e he]
    exact hm e.1
  · refine (List.nodupKeys_iff_pairwise.mp m.nodupKeys).imp_of_mem ?_
    intro e e' he he' hne u hu hu'
    change u ∈ e.2 at hu
    change u ∈ e'.2 at hu'
    rw [hget e he] at hu
    rw [hget e' he'] at hu'
    exact hne ((hreceiver _ u hu).symm.trans (hreceiver _ u hu'))

end UtxoMap

variable {m : UtxoMap} {first : UTXOlist} {spent : List Input}

/-- Each wallet holds the first coins it received and that are not spent. -/
def HoldsUnspent (m : UtxoMap) (first : UTXOlist) (spent : List Input) : Prop :=
  ∀ w, UtxoMap.get m w = first.filter fun u => u.output.receiverID = w ∧ u.outpoint ∉ spent

theorem HoldsUnspent.mem_iff
    (h : HoldsUnspent m first spent)
    {w : UInt32} {u : UTXO} :
    u ∈ UtxoMap.get m w ↔ u ∈ first ∧ u.output.receiverID = w ∧ u.outpoint ∉ spent := by
  rw [h w, List.mem_filter, decide_eq_true_iff]

theorem HoldsUnspent.outpoints_nodup
    (h : HoldsUnspent m first spent)
    (hfirst : first.outpoints.Nodup)
    (w : UInt32) :
    (UtxoMap.get m w).outpoints.Nodup := by
  rw [h w]
  exact hfirst.sublist (List.filter_sublist.map _)

theorem HoldsUnspent.sublist
    (h : HoldsUnspent m first spent)
    (w : UInt32) :
    (UtxoMap.get m w).Sublist (first.filter fun u => u.output.receiverID = w) := by
  rw [h w]
  refine List.monotone_filter_right _ ?_
  intro u hu
  rw [decide_eq_true_iff] at hu ⊢
  exact hu.1

theorem HoldsUnspent.namesOwn
    (h : HoldsUnspent m first spent)
    (hfirst : first.outpoints.Nodup)
    {t : Transaction}
    (hown : t.InputsFrom first) :
    t.NamesOwn m := by
  intro i hi w hw
  obtain ⟨u, hu, hout, hreceiver⟩ := hown i hi
  obtain ⟨u', hu', hout'⟩ := List.mem_map.mp hw
  obtain ⟨hmem, hreceiver', _⟩ := h.mem_iff.mp hu'
  have hsame : u' = u := List.inj_on_of_nodup_map hfirst hmem hu (hout'.trans hout.symm)
  rw [← hreceiver, ← hreceiver', hsame]

theorem HoldsUnspent.congr
    (h : HoldsUnspent m first spent)
    {spent' : List Input}
    (hsame : ∀ i, i ∈ spent ↔ i ∈ spent') :
    HoldsUnspent m first spent' := by
  intro w
  simp only [h w, hsame]

theorem HoldsUnspent.agreeTransaction
    (h : HoldsUnspent m first spent)
    (hfirst : first.outpoints.Nodup)
    {m' : UtxoMap} {t : Transaction}
    (happly : Validator.agreeTransaction m t = some m')
    (hown : t.InputsFrom first)
    (hdesc : (spentPositions (UtxoMap.get m t.walletId) t.inputs).Pairwise (· > ·)) :
    HoldsUnspent m' first (t.inputs ++ spent) := by
  intro w
  rw [agreeTransaction_eq_filter happly (h.outpoints_nodup hfirst) hdesc (h.namesOwn hfirst hown) w,
    h w, List.filter_filter]
  refine List.filter_congr ?_
  intro u _
  rw [Bool.eq_iff_iff]
  simp only [Bool.and_eq_true, decide_eq_true_eq, List.mem_append, not_or]
  exact and_left_comm

/-- Applied transactions add their inputs to the spent outpoints. -/
theorem HoldsUnspent.foldlM
    (hfirst : first.outpoints.Nodup)
    {txs : List Transaction} :
    ∀ {m m' : UtxoMap} {spent : List Input}, HoldsUnspent m first spent →
      txs.foldlM Validator.agreeTransaction m = some m' →
      (∀ t ∈ txs, t.InputsFrom first) →
      (∀ t ∈ txs, t.ErasesDown m) →
      HoldsUnspent m' first (txs.flatMap Transaction.inputs ++ spent) := by
  induction txs with
  | nil =>
      intro m m' spent h happly _ _
      obtain rfl := Option.some.inj happly
      exact h
  | cons t txs ih =>
      intro m m' spent h happly hown hdown
      obtain ⟨hown₁, hown⟩ := List.forall_mem_cons.mp hown
      obtain ⟨hdown₁, hdown⟩ := List.forall_mem_cons.mp hdown
      rw [List.foldlM_cons] at happly
      obtain ⟨m₁, hm₁, hrest⟩ := Option.bind_eq_some_iff.mp happly
      have hsub := agreeTransaction_sublist hm₁
      have hstep := h.agreeTransaction hfirst hm₁ hown₁
        (hdown₁ m m₁ (fun _ => List.Sublist.refl _) hm₁)
      have htail := ih hstep hrest hown fun s hs m₂ m₃ hsub₂ =>
        hdown s hs m₂ m₃ fun w => (hsub₂ w).trans (hsub w)
      refine htail.congr ?_
      intro i
      simp only [List.flatMap_cons, List.mem_append]
      tauto

/-- All lists together are the unspent first coins. -/
theorem HoldsUnspent.all_perm
    (h : HoldsUnspent m first spent)
    (hfirst : first.outpoints.Nodup) :
    (UtxoMap.all m).Perm (first.filter fun u => u.outpoint ∉ spent) := by
  have hall : (UtxoMap.all m).Nodup := by
    refine UtxoMap.nodup_all (fun w => (h.outpoints_nodup hfirst w).of_map) ?_
    intro w u hu
    exact (h.mem_iff.mp hu).2.1
  rw [List.perm_ext_iff_of_nodup hall (hfirst.of_map.filter _)]
  intro u
  rw [(UtxoMap.concatenation_all m).mem_iff, List.mem_filter, decide_eq_true_iff]
  constructor
  · rintro ⟨w, hu⟩
    obtain ⟨hmem, _, hunspent⟩ := h.mem_iff.mp hu
    exact ⟨hmem, hunspent⟩
  · rintro ⟨hmem, hunspent⟩
    exact ⟨_, h.mem_iff.mpr ⟨hmem, rfl, hunspent⟩⟩

/-- A spent outpoint is that of one first coin. -/
theorem length_filter_spent
    (hfirst : first.outpoints.Nodup)
    (hspent : ∀ i ∈ spent, i ∈ first.outpoints) :
    (first.filter fun u => u.outpoint ∈ spent).length = spent.dedup.length := by
  have hperm : ((first.filter fun u => u.outpoint ∈ spent).map UTXO.outpoint).Perm
      spent.dedup := by
    rw [List.perm_ext_iff_of_nodup (hfirst.sublist (List.filter_sublist.map _))
      (List.nodup_dedup spent)]
    intro i
    simp only [List.mem_map, List.mem_filter, decide_eq_true_iff, List.mem_dedup]
    constructor
    · rintro ⟨u, ⟨_, hu⟩, rfl⟩
      exact hu
    · intro hi
      obtain ⟨u, hu, rfl⟩ := List.mem_map.mp (hspent i hi)
      exact ⟨u, ⟨hu, hi⟩, rfl⟩
  rw [← hperm.length_eq, List.length_map]

theorem totalValue_of_same_value
    {l : UTXOlist} {coins : UInt64}
    (h : ∀ u ∈ l, u.output.value = coins) :
    UTXOlist.totalValue l = coins.toNat * l.length := by
  have hmap : (l.map fun u => u.output.value.toNat) = List.replicate l.length coins.toNat := by
    rw [List.eq_replicate_iff]
    refine ⟨List.length_map _, ?_⟩
    intro n hn
    obtain ⟨u, hu, rfl⟩ := List.mem_map.mp hn
    rw [h u hu]
  rw [UTXOlist.totalValue, hmap, List.sum_replicate_nat, Nat.mul_comm]

/-- Every spent outpoint costs one coin. -/
theorem HoldsUnspent.totalValue
    (h : HoldsUnspent m first spent)
    (hfirst : first.outpoints.Nodup)
    (hspent : ∀ i ∈ spent, i ∈ first.outpoints)
    {coins : UInt64}
    (hvalue : ∀ u ∈ first, u.output.value = coins) :
    UtxoMap.totalValue m + coins.toNat * spent.dedup.length = coins.toNat * first.length := by
  have hperm := h.all_perm hfirst
  have htotal : UtxoMap.totalValue m =
      coins.toNat * (first.filter fun u => u.outpoint ∉ spent).length := by
    rw [UtxoMap.totalValue_eq_all, ← hperm.length_eq]
    refine totalValue_of_same_value ?_
    intro u hu
    exact hvalue u (List.mem_of_mem_filter (hperm.mem_iff.mp hu))
  have hsplit := List.length_eq_length_filter_add (l := first) fun u => decide (u.outpoint ∈ spent)
  have hrest : (first.filter fun u => !decide (u.outpoint ∈ spent)) =
      first.filter fun u => u.outpoint ∉ spent := by
    refine List.filter_congr ?_
    intro u _
    rw [decide_not]
  rw [htotal, ← length_filter_spent hfirst hspent, ← Nat.mul_add, hsplit, hrest, Nat.add_comm]

end Totals

section Runs

/-- The condition on a step: the inputs of each applied transaction stand in decreasing order. -/
def InOrder (s : LedgerState) : LedgerAction → Prop
  | .agree b =>
      ∀ t ∈ b.txs, (spentPositions (UtxoMap.get s.v.utxoSets t.walletId) t.inputs).Pairwise (· > ·)
  | _ => True

variable {walletsIds : List UInt32} {coins : UInt64} {s : LedgerState}

/-- The lists, and the blocks they were taken from. -/
structure Accounted (first : UTXOlist) (s : LedgerState) : Prop where
  lists : HoldsUnspent s.v.utxoSets first (s.applied.flatMap Block.inputs)
  accepted : ∀ b ∈ s.accepted, b ∈ s.proposed
  applied : ∀ b ∈ s.applied, b ∈ s.proposed

theorem accounted_agree
    {first : UTXOlist}
    (h : Accounted first s)
    (hfirst : first.outpoints.Nodup)
    {b : Block} {v' : Validator}
    (hguard : InOrder s (.agree b))
    (hown : ∀ t ∈ b.txs, t.InputsFrom first)
    (hacc : b ∈ s.accepted)
    (happly : s.v.onAgreeBlk b = some v') :
    Accounted first { s with v := v', applied := b :: s.applied } := by
  obtain ⟨m', hm', rfl⟩ := Option.map_eq_some_iff.mp happly
  refine ⟨?_, h.accepted, ?_⟩
  · refine h.lists.foldlM hfirst hm' hown ?_
    intro t ht
    exact erasesDown_of_pairwise (h.lists.outpoints_nodup hfirst t.walletId) (hguard t ht)
  · intro b' hb'
    rcases List.mem_cons.mp hb' with rfl | hb'
    · exact h.accepted b' hacc
    · exact h.applied b' hb'

variable [Platform]

/-- Every run can be recorded. -/
theorem exists_provenance
    (hrun : Reachable (LedgerInit walletsIds coins) LedgerStep s) :
    ∃ received, Provenance (Validator.firstCoins { walletsIds := walletsIds } coins)
      { ledger := s, received := received } := by
  induction hrun with
  | start hinit =>
      exact ⟨[], provenance_init ⟨hinit, rfl⟩⟩
  | @next s s' a run hstep ih =>
      obtain ⟨received, h⟩ := ih
      exact ⟨received ++ a.received, provenance_step h ⟨hstep, rfl⟩⟩

/-- A proposed transaction names coins its sender began with. -/
theorem inputsFrom_of_reachable
    (hrun : Reachable (LedgerInit walletsIds coins) LedgerStep s)
    {b : Block} {t : Transaction}
    (hb : b ∈ s.proposed)
    (ht : t ∈ b.txs) :
    t.InputsFrom (Validator.firstCoins { walletsIds := walletsIds } coins) := by
  obtain ⟨received, h⟩ := exists_provenance hrun
  exact (h.spends t (List.mem_append_left _ (List.mem_flatMap.mpr ⟨b, hb, ht⟩))).own

theorem accounted_of_reachable
    (hlen : walletsIds.length ≤ 2 ^ 32)
    (hrun : Reachable (LedgerInit walletsIds coins) (Guarded InOrder LedgerStep) s) :
    Accounted (Validator.firstCoins { walletsIds := walletsIds } coins) s := by
  induction hrun with
  | start hinit =>
      subst hinit
      refine ⟨?_, fun b hb => absurd hb List.not_mem_nil, fun b hb => absurd hb List.not_mem_nil⟩
      intro w
      simpa using initializeCoins_get walletsIds coins w
  | @next s s' a run hstep h =>
      obtain ⟨hguard, hstep⟩ := hstep
      have hplain : Reachable (LedgerInit walletsIds coins) LedgerStep s :=
        run.mono fun _ _ _ hboth => hboth.2
      cases hstep with
      | recvTx tx =>
          have hsame : (s.v.onRecvTx tx).2.utxoSets = s.v.utxoSets := by
            rcases onRecvTx_cases s.v tx with ⟨_, _, hv⟩ | ⟨_, hv⟩
            · rw [hv]
              rfl
            · rw [hv]
              rfl
          exact ⟨by simpa only [hsame] using h.lists, h.accepted, h.applied⟩
      | createAndPropose blk v' hcreate =>
          obtain ⟨_, rfl⟩ := txs_of_createBlk hcreate
          exact ⟨h.lists, fun b hb => List.mem_cons_of_mem _ (h.accepted b hb),
            fun b hb => List.mem_cons_of_mem _ (h.applied b hb)⟩
      | accept b hprop hverify =>
          refine ⟨h.lists, ?_, h.applied⟩
          intro b' hb'
          rcases List.mem_cons.mp hb' with rfl | hb'
          · exact hprop
          · exact h.accepted b' hb'
      | agree b v' hacc happly =>
          refine accounted_agree h (firstCoins_outpoints_nodup walletsIds coins hlen) hguard ?_
            hacc happly
          intro t ht
          exact inputsFrom_of_reachable hplain (h.accepted b hacc) ht

/--
In every run from `InitializeCoins` that applies blocks in order, the list of
each wallet is what the applied blocks left of its first coins, and the value
in all lists is that of one coin for each wallet and each outpoint not spent.
-/
theorem ledger_of_inOrder
    (walletsIds : List UInt32) (coins : UInt64)
    (hlen : walletsIds.length ≤ 2 ^ 32)
    (s : LedgerState)
    (hrun : Reachable (LedgerInit walletsIds coins) (Guarded InOrder LedgerStep) s) :
    HoldsUnspent s.v.utxoSets (Validator.firstCoins { walletsIds := walletsIds } coins)
      (s.applied.flatMap Block.inputs) ∧
    UtxoMap.totalValue s.v.utxoSets +
        coins.toNat * (s.applied.flatMap Block.inputs).dedup.length =
      coins.toNat * walletsIds.length := by
  have h := accounted_of_reachable hlen hrun
  refine ⟨h.lists, ?_⟩
  rw [← firstCoins_length walletsIds coins]
  refine h.lists.totalValue (firstCoins_outpoints_nodup walletsIds coins hlen) ?_
    fun _ => value_of_mem_firstCoins walletsIds coins
  intro i hi
  obtain ⟨b, hb, hib⟩ := List.mem_flatMap.mp hi
  obtain ⟨t, ht, hit⟩ := Block.mem_inputs.mp hib
  have hplain : Reachable (LedgerInit walletsIds coins) LedgerStep s :=
    hrun.mono fun _ _ _ hboth => hboth.2
  obtain ⟨u, hu, hout, _⟩ := inputsFrom_of_reachable hplain (h.applied b hb) ht i hit
  exact List.mem_map.mpr ⟨u, hu, hout⟩

end Runs

section TwoCoins

variable [Platform]

/-- Wallet 1 is listed twice, so it holds two coins of value 10. -/
def twoCoinLeader : Validator :=
  Validator.initializeCoins { walletsIds := [1, 1] } 10

/-- Both coins of wallet 1 sent back to it, the later one first. -/
def bothCoins : Transaction :=
  Transaction.signedWith
    { inputs := [⟨1, 0⟩, ⟨0, 0⟩], outputs := [⟨10, 1⟩, ⟨10, 1⟩], senderID := 1, txID := 100 }
    (uniformKey 1)

theorem bothCoins_checkSpendingConditions :
    bothCoins.checkSpendingConditions [⟨0, 0, ⟨10, 1⟩⟩, ⟨1, 0, ⟨10, 1⟩⟩] [1, 1] = true := by
  rw [bothCoins, checkSpendingConditions_signedWith]
  rfl

theorem twoCoinLeader_spendable :
    twoCoinLeader.Spendable bothCoins := by
  have hget : UtxoMap.get twoCoinLeader.utxoSets bothCoins.walletId =
      [⟨0, 0, ⟨10, 1⟩⟩, ⟨1, 0, ⟨10, 1⟩⟩] := rfl
  unfold Validator.Spendable
  rw [hget]
  exact bothCoins_checkSpendingConditions

theorem twoCoinLeader_verify :
    (singleBlock bothCoins).verify twoCoinLeader.nodeUtxolist
      twoCoinLeader.nodeWalletIds = true := by
  have hsame : (singleBlock bothCoins).txs = [bothCoins] := rfl
  show (singleBlock bothCoins).verify [⟨0, 0, ⟨10, 1⟩⟩, ⟨1, 0, ⟨10, 1⟩⟩] [1, 1] = true
  unfold Block.verify
  simp only [hsame, List.all_cons, bothCoins_checkSpendingConditions]
  rfl

/-- The block with both coins is accepted and not applied yet. -/
def bothAccepted : LedgerState where
  v := twoCoinLeader.updateKeys 1 bothCoins
  proposed := [singleBlock bothCoins]
  accepted := [singleBlock bothCoins]

end TwoCoins

/-- Both coins of a wallet are sent with one transaction: after the application nothing is left. -/
theorem ledger_of_both_coins :
    letI := referencePlatform
    ∃ s : LedgerState, s.applied = [singleBlock bothCoins] ∧
      (∀ w, UtxoMap.get s.v.utxoSets w = []) ∧
      UtxoMap.totalValue s.v.utxoSets +
        10 * (s.applied.flatMap Block.inputs).dedup.length = 10 * 2 := by
  let _ := referencePlatform
  have hstart : Reachable (LedgerInit [1, 1] 10) (Guarded InOrder LedgerStep)
      { v := twoCoinLeader } := .start rfl
  have hsigned : bothCoins.VerifiesUnder bothCoins.publicKey :=
    signedWith_verifiesUnder _ (uniformKey_wellFormed 1)
  have hrecv := hstart.next_guarded (ledgerStep_recvTx hsigned twoCoinLeader_spendable) trivial
  have hcreate := hrecv.next_guarded (ledgerStep_create rfl rfl twoCoinLeader_spendable) trivial
  have haccept : Reachable (LedgerInit [1, 1] 10) (Guarded InOrder LedgerStep) bothAccepted :=
    hcreate.next_guarded (.accept _ _ (List.mem_singleton.mpr rfl) twoCoinLeader_verify) trivial
  have happly : (bothAccepted.v.onAgreeBlk (singleBlock bothCoins)).isSome = true := by
    rfl
  obtain ⟨v', hv'⟩ := Option.isSome_iff_exists.mp happly
  have hordered : InOrder bothAccepted (.agree (singleBlock bothCoins)) := by
    intro t ht
    rw [List.mem_singleton.mp ht]
    show [1, 0].Pairwise (· > ·)
    decide
  have hagree := haccept.next_guarded
    (.agree bothAccepted _ v' (List.mem_singleton.mpr rfl) hv') hordered
  obtain ⟨hlists, htotal⟩ := ledger_of_inOrder [1, 1] 10 (by decide) _ hagree
  refine ⟨_, rfl, ?_, htotal⟩
  intro w
  rw [hlists w, List.filter_eq_nil_iff]
  intro u hu hkept
  have hspent : ∀ u ∈ Validator.firstCoins { walletsIds := [1, 1] } 10,
      u.outpoint ∈ [singleBlock bothCoins].flatMap Block.inputs := by
    decide
  exact (of_decide_eq_true hkept).2 (hspent u hu)

end CosiCoin
