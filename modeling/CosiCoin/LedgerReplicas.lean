import CosiCoin.LedgerAccounting

/-!
# COSICOIN: the ledgers of all validators

Every validator initializes the coins of the same wallets and applies the blocks
it has accepted in a task of its own, which ends with `OnSyncReply`.  A run
interleaves the tasks of all validators with the reception of transactions at
any of them and with the proposals of the leader.  Validators may accept the
blocks in different orders, group them differently into tasks, lag behind or
apply a block again.

With different wallet ids the ledger of a validator depends on nothing but the
outpoints its applied blocks spend: two validators hold the same lists if and
only if these are the same (`replicas_agree_iff`).  What the server of a
validator hands to the wallets are these lists.
-/

namespace CosiCoin

open Validator LabelledRuns

section Tasks

variable {first : UTXOlist}

/-- The lists of the wallets begin with one coin at most. -/
def AtMostOneCoin (first : UTXOlist) : Prop :=
  ∀ w : UInt32, (first.filter fun u => u.output.receiverID = w).length ≤ 1

/-- With different ids every wallet begins with one coin at most. -/
theorem atMostOneCoin_firstCoins
    {walletsIds : List UInt32}
    (hids : walletsIds.Nodup)
    (coins : UInt64) :
    AtMostOneCoin (Validator.firstCoins { walletsIds := walletsIds } coins) := by
  intro w
  have houtputs := congrArg (List.map Output.receiverID) (firstCoins_outputs walletsIds coins)
  rw [List.map_map, List.map_map] at houtputs
  have hreceivers : (Validator.firstCoins { walletsIds := walletsIds } coins).map
      (fun u => u.output.receiverID) = walletsIds := houtputs.trans (List.map_id walletsIds)
  have hcount : ((Validator.firstCoins { walletsIds := walletsIds } coins).filter
      fun u => u.output.receiverID = w).length = walletsIds.count w := by
    conv_rhs => rw [← hreceivers]
    rw [List.count, List.countP_map, List.countP_eq_length_filter]
    rfl
  rw [hcount]
  exact List.nodup_iff_count_le_one.mp hids w

/-- The blocks of a task add their inputs to the spent outpoints. -/
theorem HoldsUnspent.foldlM_onAgreeBlk
    (hfirst : first.outpoints.Nodup)
    (hone : AtMostOneCoin first)
    {blist : List Block} :
    ∀ {v v' : Validator} {spent : List Input}, HoldsUnspent v.utxoSets first spent →
      blist.foldlM Validator.onAgreeBlk v = some v' →
      (∀ b ∈ blist, ∀ t ∈ b.txs, t.InputsFrom first) →
      HoldsUnspent v'.utxoSets first (blist.flatMap Block.inputs ++ spent) := by
  induction blist with
  | nil =>
      intro v v' spent h happly _
      obtain rfl := Option.some.inj happly
      exact h
  | cons b blist ih =>
      intro v v' spent h happly hown
      obtain ⟨hown₁, hown⟩ := List.forall_mem_cons.mp hown
      rw [List.foldlM_cons] at happly
      obtain ⟨v₁, hv₁, hrest⟩ := Option.bind_eq_some_iff.mp happly
      obtain ⟨m₁, hm₁, rfl⟩ := Option.map_eq_some_iff.mp hv₁
      have hstep : HoldsUnspent m₁ first (b.inputs ++ spent) := by
        refine h.foldlM hfirst hm₁ hown₁ ?_
        intro t _
        exact erasesDown_of_short ((h.sublist t.walletId).length_le.trans (hone t.walletId))
      refine (ih hstep hrest hown).congr ?_
      intro i
      simp only [List.flatMap_cons, List.mem_append]
      tauto

/-- Of two ledgers the same lists say that the same outpoints are spent. -/
theorem HoldsUnspent.spent_subset
    {m m' : UtxoMap} {spent spent' : List Input}
    (h : HoldsUnspent m first spent)
    (h' : HoldsUnspent m' first spent')
    (hspent : ∀ i ∈ spent, i ∈ first.outpoints)
    (hsame : ∀ w, UtxoMap.get m w = UtxoMap.get m' w) :
    ∀ i ∈ spent, i ∈ spent' := by
  intro i hi
  obtain ⟨u, hu, rfl⟩ := List.mem_map.mp (hspent i hi)
  by_contra hnot
  have hmem : u ∈ UtxoMap.get m' u.output.receiverID := h'.mem_iff.mpr ⟨hu, rfl, hnot⟩
  rw [← hsame] at hmem
  exact (h.mem_iff.mp hmem).2.2 hi

theorem HoldsUnspent.lists_eq_iff
    {m m' : UtxoMap} {spent spent' : List Input}
    (h : HoldsUnspent m first spent)
    (h' : HoldsUnspent m' first spent')
    (hspent : ∀ i ∈ spent, i ∈ first.outpoints)
    (hspent' : ∀ i ∈ spent', i ∈ first.outpoints) :
    (∀ w, UtxoMap.get m w = UtxoMap.get m' w) ↔ ∀ i, i ∈ spent ↔ i ∈ spent' := by
  constructor
  · intro hsame i
    exact ⟨h.spent_subset h' hspent hsame i,
      h'.spent_subset h hspent' (fun w => (hsame w).symm) i⟩
  · intro hiff w
    rw [(h.congr hiff) w, h' w]

end Tasks

section Cluster

variable {ι : Type}

/-- The validators, the blocks proposed by the leader, and what each did with them. -/
structure ClusterState (ι : Type) where
  validators : ι → Validator
  proposed : List Block := []
  accepted : ι → List Block := fun _ => []
  applied : ι → List Block := fun _ => []

/-- The steps of the leader and of each validator. -/
inductive ClusterAction (ι : Type) where
  | recvTx (i : ι) (tx : Transaction)
  | createAndPropose
  | accept (i : ι) (b : Block)
  | store (i : ι) (blist : List Block)

variable [DecidableEq ι]

/-- One step of a run; the task of `DBProcess` is one step. -/
inductive ClusterStep [Platform] (leader : ι) :
    ClusterState ι → ClusterAction ι → ClusterState ι → Prop
  | recvTx
      (s : ClusterState ι) (i : ι) (tx : Transaction) :
      ClusterStep leader s (.recvTx i tx)
        { s with
          validators := Function.update s.validators i ((s.validators i).onRecvTx tx).2 }
  | createAndPropose
      (s : ClusterState ι) (blk : Block) (v' : Validator)
      (hcreate : (s.validators leader).createBlk {} = .ok (1, blk, v')) :
      ClusterStep leader s .createAndPropose
        { s with
          validators := Function.update s.validators leader v'
          proposed := blk :: s.proposed }
  | accept
      (s : ClusterState ι) (i : ι) (b : Block)
      (hprop : b ∈ s.proposed)
      (hverify : b.verify (s.validators i).nodeUtxolist (s.validators i).nodeWalletIds = true) :
      ClusterStep leader s (.accept i b)
        { s with accepted := Function.update s.accepted i (b :: s.accepted i) }
  | store
      (s : ClusterState ι) (i : ι) (blist : List Block) (v' : Validator)
      (hacc : ∀ b ∈ blist, b ∈ s.accepted i)
      (happly : blist.foldlM Validator.onAgreeBlk (s.validators i) = some v') :
      ClusterStep leader s (.store i blist)
        { s with
          validators := Function.update s.validators i v'.onSyncReply
          applied := Function.update s.applied i (blist ++ s.applied i) }

/-- Every validator has just initialized the coins of the same wallets. -/
def ClusterInit (leader : ι) (walletsIds : List UInt32) (coins : UInt64)
    (s : ClusterState ι) : Prop :=
  s = { validators := fun i =>
    Validator.initializeCoins { isLeader := decide (i = leader), walletsIds := walletsIds } coins }

/-- Every ledger is what its applied blocks left, and the server has a copy of it. -/
structure Replicated (first : UTXOlist) (s : ClusterState ι) : Prop where
  lists : ∀ i, HoldsUnspent (s.validators i).utxoSets first ((s.applied i).flatMap Block.inputs)
  served : ∀ i, (s.validators i).serverUtxolists = (s.validators i).utxoSets
  proposed : ∀ b ∈ s.proposed, ∀ t ∈ b.txs, t.InputsFrom first
  accepted : ∀ i, ∀ b ∈ s.accepted i, b ∈ s.proposed
  applied : ∀ i, ∀ b ∈ s.applied i, b ∈ s.proposed

variable {first : UTXOlist} {leader : ι} {s s' : ClusterState ι} {a : ClusterAction ι}

/-- A validator that keeps its coins changes nothing. -/
theorem Replicated.update_validator
    (h : Replicated first s)
    (i : ι) {v : Validator}
    (hcoins : v.utxoSets = (s.validators i).utxoSets)
    (hserver : v.serverUtxolists = (s.validators i).serverUtxolists) :
    Replicated first { s with validators := Function.update s.validators i v } := by
  refine ⟨?_, ?_, h.proposed, h.accepted, h.applied⟩
  · intro j
    dsimp only
    by_cases hj : j = i
    · subst hj
      rw [Function.update_self, hcoins]
      exact h.lists j
    · rw [Function.update_of_ne hj]
      exact h.lists j
  · intro j
    dsimp only
    by_cases hj : j = i
    · subst hj
      rw [Function.update_self, hcoins, hserver]
      exact h.served j
    · rw [Function.update_of_ne hj]
      exact h.served j

/-- A task adds the inputs of its blocks to those its validator has applied. -/
theorem Replicated.store
    (h : Replicated first s)
    (hfirst : first.outpoints.Nodup)
    (hone : AtMostOneCoin first)
    {i : ι} {blist : List Block} {v' : Validator}
    (hacc : ∀ b ∈ blist, b ∈ s.accepted i)
    (happly : blist.foldlM Validator.onAgreeBlk (s.validators i) = some v') :
    Replicated first
      { s with
        validators := Function.update s.validators i v'.onSyncReply
        applied := Function.update s.applied i (blist ++ s.applied i) } := by
  refine ⟨?_, ?_, h.proposed, h.accepted, ?_⟩
  · intro j
    dsimp only
    by_cases hj : j = i
    · subst hj
      rw [Function.update_self, Function.update_self, List.flatMap_append]
      change HoldsUnspent v'.utxoSets first _
      exact (h.lists j).foldlM_onAgreeBlk hfirst hone happly
        fun b hb => h.proposed b (h.accepted j b (hacc b hb))
    · rw [Function.update_of_ne hj, Function.update_of_ne hj]
      exact h.lists j
  · intro j
    dsimp only
    by_cases hj : j = i
    · subst hj
      rw [Function.update_self]
      rfl
    · rw [Function.update_of_ne hj]
      exact h.served j
  · intro j b hb
    dsimp only at hb
    by_cases hj : j = i
    · subst hj
      rw [Function.update_self] at hb
      rcases List.mem_append.mp hb with hnew | hold
      · exact h.accepted j b (hacc b hnew)
      · exact h.applied j b hold
    · rw [Function.update_of_ne hj] at hb
      exact h.applied j b hb

theorem replicated_step
    [Platform]
    (hfirst : first.outpoints.Nodup)
    (hone : AtMostOneCoin first)
    (h : Replicated first s)
    (hstep : ClusterStep leader s a s') :
    Replicated first s' := by
  cases hstep with
  | recvTx i tx =>
      rcases onRecvTx_cases (s.validators i) tx with ⟨_, _, hv⟩ | ⟨_, hv⟩
      · rw [hv]
        exact h.update_validator i rfl rfl
      · rw [hv]
        exact h.update_validator i rfl rfl
  | createAndPropose blk v' hcreate =>
      obtain ⟨rfl, hblk⟩ := createBlk_eq_ok hcreate
      have hkept := h.update_validator leader
        (v := { s.validators leader with memoryPool := [] }) rfl rfl
      refine ⟨hkept.lists, hkept.served, ?_, ?_, ?_⟩
      · intro b hb t ht
        rcases List.mem_cons.mp hb with rfl | hb
        · exact inputsFrom_of_spendable (fun w => (h.lists leader).sublist w) (hblk t ht).2
        · exact h.proposed b hb t ht
      · intro i b hb
        exact List.mem_cons_of_mem _ (h.accepted i b hb)
      · intro i b hb
        exact List.mem_cons_of_mem _ (h.applied i b hb)
  | accept i b hprop hverify =>
      refine ⟨h.lists, h.served, h.proposed, ?_, h.applied⟩
      intro j b' hb'
      dsimp only at hb'
      by_cases hj : j = i
      · subst hj
        rw [Function.update_self] at hb'
        rcases List.mem_cons.mp hb' with rfl | hb'
        · exact hprop
        · exact h.accepted j b' hb'
      · rw [Function.update_of_ne hj] at hb'
        exact h.accepted j b' hb'
  | store i blist v' hacc happly =>
      exact h.store hfirst hone hacc happly

theorem replicated_init
    {walletsIds : List UInt32} {coins : UInt64}
    (h : ClusterInit leader walletsIds coins s) :
    Replicated (Validator.firstCoins { walletsIds := walletsIds } coins) s := by
  subst h
  refine ⟨?_, fun _ => rfl, ?_, ?_, ?_⟩
  · intro i w
    refine (initializeCoins_get walletsIds coins w).trans ?_
    simp
  · intro b hb
    cases hb
  · intro i b hb
    cases hb
  · intro i b hb
    cases hb

/--
With different wallet ids, in every state of every run: the server of a
validator offers its lists, and two validators have the same lists if and only
if their applied blocks spend the same outpoints.
-/
theorem replicas_agree_iff
    [Platform]
    (leader : ι)
    (walletsIds : List UInt32) (coins : UInt64)
    (hids : walletsIds.Nodup)
    (s : ClusterState ι)
    (hrun : Reachable (ClusterInit leader walletsIds coins) (ClusterStep leader) s)
    (i j : ι) :
    (s.validators i).serverUtxolists = (s.validators i).utxoSets ∧
    ((∀ w, UtxoMap.get (s.validators i).utxoSets w = UtxoMap.get (s.validators j).utxoSets w) ↔
      ∀ o, o ∈ (s.applied i).flatMap Block.inputs ↔ o ∈ (s.applied j).flatMap Block.inputs) := by
  have hfirst := firstCoins_outpoints_nodup walletsIds coins (length_le_of_nodup hids)
  have hone := atMostOneCoin_firstCoins hids coins
  have h : Replicated (Validator.firstCoins { walletsIds := walletsIds } coins) s :=
    hrun.invariant (fun _ hinit => replicated_init hinit)
      fun _ _ _ h hstep => replicated_step hfirst hone h hstep
  have hspent : ∀ k, ∀ o ∈ (s.applied k).flatMap Block.inputs,
      o ∈ (Validator.firstCoins { walletsIds := walletsIds } coins).outpoints := by
    intro k o ho
    obtain ⟨b, hb, hob⟩ := List.mem_flatMap.mp ho
    obtain ⟨t, ht, hot⟩ := Block.mem_inputs.mp hob
    obtain ⟨u, hu, hout, _⟩ := h.proposed b (h.applied k b hb) t ht o hot
    exact List.mem_map.mpr ⟨u, hu, hout⟩
  exact ⟨h.served i, (h.lists i).lists_eq_iff (h.lists j) (hspent i) (hspent j)⟩

end Cluster

section TwoValidators

variable [Platform]

theorem createBlk_single
    {v : Validator} {tx : Transaction}
    (hleader : v.isLeader = true)
    (hpool : v.memoryPool = [tx])
    (hspend : v.Spendable tx) :
    v.createBlk {} = .ok (1, singleBlock tx, { v with memoryPool := [] }) := by
  have hselection : v.selection = [tx] := by
    rw [Validator.Spendable] at hspend
    simp [Validator.selection, hpool, GreedySelection.select, hspend]
  rw [createBlk_eq_selection hleader rfl rfl (by simp [hpool]), hselection]
  rfl

/-- The leader `true` and the validator `false`, with the coin of wallet 1. -/
def coinAtBoth : ClusterState Bool where
  validators i :=
    Validator.initializeCoins { isLeader := decide (i = true), walletsIds := [1] } 10

/-- The transfer of the coin is proposed. -/
def transferProposed : ClusterState Bool where
  validators := Function.update coinAtBoth.validators true
    (oneCoinLeader.updateKeys 1 (selfTransfer 100))
  proposed := [singleBlock (selfTransfer 100)]

theorem transferProposed_reachable :
    Reachable (ClusterInit true [1] 10) (ClusterStep true) transferProposed := by
  have hstart : Reachable (ClusterInit true [1] 10) (ClusterStep true) coinAtBoth := .start rfl
  have hrecv : ClusterStep true coinAtBoth (.recvTx true (selfTransfer 100)) _ :=
    .recvTx coinAtBoth true (selfTransfer 100)
  rcases onRecvTx_cases (coinAtBoth.validators true) (selfTransfer 100) with ⟨_, _, hv⟩ | ⟨hn, _⟩
  · rw [hv] at hrecv
    have hcreate := (hstart.next hrecv).next (.createAndPropose _ _ _
      (createBlk_single rfl rfl (oneCoinLeader_spendable 100)))
    simp only [Function.update_idem] at hcreate
    exact hcreate
  · exact absurd ⟨selfTransfer_verifiesUnder 100, oneCoinLeader_spendable 100⟩ hn

end TwoValidators

/-- The follower applies the block of the transfer twice, and the ledgers agree. -/
theorem replicas_agree_once :
    letI := referencePlatform
    ∃ s : ClusterState Bool,
      s.applied true = [singleBlock (selfTransfer 100)] ∧
      s.applied false = [singleBlock (selfTransfer 100), singleBlock (selfTransfer 100)] ∧
      ∀ w, UtxoMap.get (s.validators true).utxoSets w =
        UtxoMap.get (s.validators false).utxoSets w := by
  let _ := referencePlatform
  have hleader := transferProposed_reachable.next (.accept _ true (singleBlock (selfTransfer 100))
    (List.mem_singleton.mpr rfl) (oneCoinLeader_verify 100))
  have hboth := hleader.next (.accept _ false (singleBlock (selfTransfer 100))
    (List.mem_singleton.mpr rfl) (oneCoinLeader_verify 100))
  have hone : ([singleBlock (selfTransfer 100)].foldlM Validator.onAgreeBlk
      (transferProposed.validators true)).isSome = true := by
    rfl
  have htwo : ([singleBlock (selfTransfer 100), singleBlock (selfTransfer 100)].foldlM
      Validator.onAgreeBlk (transferProposed.validators false)).isSome = true := by
    rfl
  obtain ⟨v₁, hv₁⟩ := Option.isSome_iff_exists.mp hone
  obtain ⟨v₂, hv₂⟩ := Option.isSome_iff_exists.mp htwo
  have hstored := hboth.next (.store _ true _ v₁ (by simp) hv₁)
  have hfollowed := hstored.next (.store _ false _ v₂ (by simp) hv₂)
  refine ⟨_, ?_, ?_,
    ((replicas_agree_iff true [1] 10 (by decide) _ hfollowed true false).2).mpr ?_⟩
  · simp [transferProposed]
  · simp [transferProposed]
  · intro o
    simp [transferProposed]

end CosiCoin
