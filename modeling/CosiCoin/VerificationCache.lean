import CosiCoin.NodeLifetime
import CosiCoin.ReferencePlatform
import CosiCoin.RoundFrame

/-!
# COSICOIN: the cache of verified blocks

`updateRecvMessages` does not verify a block again whose header hash is in
`verified_blocks_`.  The Merkle root in the header is never compared with the
transactions, and the set is not emptied when `setUTXOlists` brings other lists,
so a message can be counted whose block does not verify (`stale_verifications`).

What is counted does verify as long as the shortcut is only taken for
transactions that were counted under the lists in force
(`counted_verifies`).
-/

namespace CosiCoin

open LabelledRuns Node

/-- `verify` looks at the transactions only. -/
theorem verify_of_txs
    {b b' : Block}
    (h : b'.txs = b.txs)
    (utxolist : UTXOlist) (walletIds : List UInt32) :
    b'.verify utxolist walletIds = b.verify utxolist walletIds := by
  rw [Block.verify, Block.verify, Block.inputs, Block.inputs, h]

section Cache

/-- What was counted under the lists in force verifies against them. -/
def CurrentVerified (s : NodeLife) : Prop :=
  ∀ m ∈ s.current, m.block.verify s.node.utxolist s.node.walletIds = true

theorem CurrentVerified.record
    {s : NodeLife} {nd : Node} {evs : List NodeEvent}
    (hinv : CurrentVerified s)
    (hutxo : nd.utxolist = s.node.utxolist)
    (hwallets : nd.walletIds = s.node.walletIds)
    (hnone : countedMessages evs = []) :
    CurrentVerified (s.record nd evs) := by
  intro m hm
  dsimp only [NodeLife.record] at hm ⊢
  rw [hnone] at hm
  rw [hutxo, hwallets]
  exact hinv m hm

variable [P : Platform]

/--
If the verification of a message is skipped, then its transactions were counted
since the lists were last set.
-/
def CacheCurrent (s : NodeLife) : LifeAction → Prop
  | .receive m =>
      (∀ key, s.node.valSigKeys.lookup m.block.validatorId = some key → m.block.ValidUnder key) →
      m.block.header.getID ∈ s.node.verifiedBlocks →
      ∃ m' ∈ s.current, m'.block.txs = m.block.txs
  | _ => True

/-- An accepted message that meets the condition verifies. -/
theorem verify_of_accepts
    {s : NodeLife} {m : Message}
    (hinv : CurrentVerified s)
    (hcache : CacheCurrent s (.receive m))
    (haccepts : s.node.Accepts m) :
    m.block.verify s.node.utxolist s.node.walletIds = true := by
  obtain ⟨hsig, hpass⟩ := haccepts
  rw [passesVerify, Bool.or_eq_true, decide_eq_true_eq] at hpass
  rcases hpass with hcached | hverify
  · obtain ⟨m', hm', htxs⟩ := hcache hsig hcached
    rw [← verify_of_txs htxs]
    exact hinv m' hm'
  · exact hverify

theorem currentVerified_step
    {s s' : NodeLife} {a : LifeAction}
    (hinv : CurrentVerified s)
    (hcache : CacheCurrent s a)
    (h : LifeStep s a s') :
    CurrentVerified s' := by
  cases h with
  | batch => exact hinv.record rfl rfl rfl
  | receive m nd evs h =>
      rcases recvMessage_cases h with ⟨_, rfl, rfl⟩ | ⟨haccepts, rfl, rfl⟩
      · exact hinv.record rfl rfl rfl
      · obtain ⟨_, hutxo, hwallets⟩ := receive_verification s.node m
        intro m' hm'
        dsimp only [NodeLife.record] at hm' ⊢
        rw [hutxo, hwallets]
        rcases List.mem_cons.mp hm' with rfl | hm'
        · exact verify_of_accepts hinv hcache haccepts
        · exact hinv m' hm'
  | round nd₁ nd evs hrehash h =>
      have hframe := (framed_of_rehashed hrehash).trans (broadcastRound_framed h)
      exact hinv.record hframe.utxolist hframe.walletIds (broadcastRound_nodeRun h).2
  | runProtocol broadcast => exact hinv.record rfl rfl rfl
  | setUTXOlists utxolist walletIds =>
      intro m hm
      cases hm
  | propose b nd evs h =>
      obtain ⟨rfl, m, _, rfl⟩ := propose_eq_ok h
      exact hinv.record rfl rfl rfl
  | getConsensusBlocks erase =>
      cases erase with
      | false => exact hinv.record rfl rfl rfl
      | true => exact hinv.record rfl rfl rfl

theorem currentVerified_of_reachable
    {n f : Nat} {s : NodeLife}
    (h : Reachable (LifeInit n f) (Guarded CacheCurrent LifeStep) s) :
    CurrentVerified s := by
  refine Reachable.invariant ?_ ?_ h
  · rintro s ⟨id, isLead, urandom, erasedRead, rfl⟩ m hm
    cases hm
  · rintro s a s' hinv ⟨hcache, hstep⟩
    exact currentVerified_step hinv hcache hstep

/--
In a run that skips the verification only for transactions counted under the
lists in force, the block of every counted message verifies.
-/
theorem counted_verifies
    (n f : Nat) (s s' : NodeLife) (m : Message)
    (hs : Reachable (LifeInit n f) (Guarded CacheCurrent LifeStep) s)
    (h : Guarded CacheCurrent LifeStep s (.receive m) s')
    (hcounted : s'.hist = .counted m :: s.hist) :
    m.block.verify s.node.utxolist s.node.walletIds = true := by
  obtain ⟨hcache, hstep⟩ := h
  cases hstep with
  | receive m nd evs hrecv =>
      rcases recvMessage_cases hrecv with ⟨_, rfl, _⟩ | ⟨haccepts, _, _⟩
      · have hlength := congrArg List.length hcounted
        simp [NodeLife.record] at hlength
      · exact verify_of_accepts (currentVerified_of_reachable hs) hcache haccepts

end Cache

section StaleEntries

variable [P : Platform]

/-- The node counts an `ECHO` read from the wire whose block does not verify. -/
def CountsUnverified (n f : Nat) (s : NodeLife) (m : Message) : Prop :=
  LifeReachable n f s ∧ (∃ p, Message.fromProtoMessage p = .ok m) ∧ m.type = .echo ∧
    (∃ s', LifeStep s (.receive m) s' ∧ s'.hist = .counted m :: s.hist) ∧
    m.block.verify s.node.utxolist s.node.walletIds = false

/-- The first message of a validator is counted if its block passes. -/
theorem lifeStep_receive
    {s : NodeLife} {m : Message} {digest : Str}
    (hdigest : m.block.getDigest = .ok digest)
    (hnew : s.node.valSigKeys.lookup m.block.validatorId = none)
    (hpass : s.node.passesVerify m.block = true) :
    LifeStep s (.receive m) (s.record (s.node.receive m) [.counted m]) := by
  refine .receive s m _ _ (recvMessage_eq_receive hdigest ?_ hpass)
  intro key hkey
  rw [hnew] at hkey
  cases hkey

variable [LawfulPlatform P]

/--
A block is in the cache, counted under the lists in force, and a message of another
validator has the header of that block.
-/
theorem exists_cached
    (n f : Nat) {b b' : Block} {utxolist : UTXOlist} {walletIds : List UInt32}
    (hmut : b.isMutable = false)
    (henc : Encodable b.txs)
    (hmut' : b'.isMutable = false)
    (henc' : Encodable b'.txs)
    (hheader : b'.header = b.header)
    (hverify : b.verify utxolist walletIds = true) :
    ∃ s m m₀ digest, Reachable (LifeInit n f) (Guarded CacheCurrent LifeStep) s ∧
      s.hist = [.counted m₀] ∧ s.current = [m₀] ∧
      OfBlock b.header (b.txs.map wireTransaction) m₀.block ∧
      OfBlock b'.header (b'.txs.map wireTransaction) m.block ∧
      m.block.header.getID ∈ s.node.verifiedBlocks ∧
      s.node.valSigKeys.lookup m.block.validatorId = none ∧
      m.block.getDigest = .ok digest ∧ m.type = .echo ∧
      ∃ p, Message.fromProtoMessage p = .ok m := by
  have hsend : MsgType.send ≠ .other := nofun
  have hecho : MsgType.echo ≠ .other := nofun
  obtain ⟨m₀, _, _, _, hblock, ⟨digest, hdigest⟩, hsigner, _⟩ :=
    exists_selfSigned hmut henc 1 hsend
  obtain ⟨m, p, hp, htype, hblock', ⟨digest', hdigest'⟩, hsigner', _⟩ :=
    exists_selfSigned hmut' henc' 2 hecho
  let s₀ : NodeLife :=
    { node := Node.new 0 n f false (fun _ _ => (equalBytes 0, equalBytes 0)) keptRead }
  let s₁ : NodeLife := { s₀ with node := s₀.node.setUTXOlists utxolist walletIds }
  let s : NodeLife := s₁.record (s₁.node.receive m₀) [.counted m₀]
  have hs₀ : Reachable (LifeInit n f) (Guarded CacheCurrent LifeStep) s₀ := .start ⟨_, _, _, _, rfl⟩
  have hs₁ : Reachable (LifeInit n f) (Guarded CacheCurrent LifeStep) s₁ :=
    hs₀.next_guarded (.setUTXOlists s₀ utxolist walletIds) trivial
  have hpass : s₁.node.passesVerify m₀.block = true := by
    have hsame : m₀.block.verify utxolist walletIds = true := by
      rw [verify_of_wired hblock.txs, hverify]
    rw [passesVerify, Bool.or_eq_true]
    exact Or.inr hsame
  have hs : Reachable (LifeInit n f) (Guarded CacheCurrent LifeStep) s := by
    refine hs₁.next_guarded (lifeStep_receive hdigest rfl hpass) ?_
    intro _ hcached
    cases hcached
  -- the validator of the second message is not known yet, and the header is in the cache
  have hkeys : s.node.valSigKeys.lookup m.block.validatorId = none := by
    have hstored : s.node.valSigKeys =
        s₁.node.valSigKeys.insert m₀.block.validatorId m₀.block.validatorNextPublicKey :=
      (receive_same s₁.node m₀).2.1
    rw [hstored, hsigner, hsigner', AList.lookup_insert_ne (by decide)]
    rfl
  have hcached : m.block.header.getID ∈ s.node.verifiedBlocks := by
    have hverified : s.node.verifiedBlocks =
        insert m₀.block.header.getID s₁.node.verifiedBlocks := (receive_verification s₁.node m₀).1
    rw [hverified, hblock.header, hblock'.header, hheader]
    exact Finset.mem_insert_self _ _
  exact ⟨s, m, m₀, digest', hs, rfl, rfl, hblock, hblock', hcached, hkeys, hdigest', htype, p, hp⟩

/-- Once a block is in the cache, a block with its header is counted under any lists. -/
theorem exists_stale_count
    (n f : Nat) {b b' : Block} {utxolist utxolist' : UTXOlist} {walletIds walletIds' : List UInt32}
    (hmut : b.isMutable = false)
    (henc : Encodable b.txs)
    (hmut' : b'.isMutable = false)
    (henc' : Encodable b'.txs)
    (hheader : b'.header = b.header)
    (hverify : b.verify utxolist walletIds = true)
    (hfails : b'.verify utxolist' walletIds' = false) :
    ∃ s m m₀, CountsUnverified n f s m ∧ s.hist = [.counted m₀] ∧
      s.node.utxolist = utxolist' ∧ s.node.walletIds = walletIds' ∧
      OfBlock b.header (b.txs.map wireTransaction) m₀.block ∧
      OfBlock b'.header (b'.txs.map wireTransaction) m.block := by
  obtain ⟨s₀, m, m₀, digest, hs₀, hhist, _, hblock, hblock', hcached, hkeys, hdigest, htype,
    hwire⟩ :=
    exists_cached n f hmut henc hmut' henc' hheader hverify
  let s : NodeLife := { s₀ with node := s₀.node.setUTXOlists utxolist' walletIds', current := [] }
  have hs : LifeReachable n f s :=
    .next (hs₀.mono fun _ _ _ h => h.2) (.setUTXOlists s₀ utxolist' walletIds')
  have hpass : s.node.passesVerify m.block = true := by
    rw [passesVerify, Bool.or_eq_true, decide_eq_true_eq]
    exact Or.inl hcached
  have hunverified : m.block.verify utxolist' walletIds' = false := by
    rw [verify_of_wired hblock'.txs, hfails]
  exact ⟨s, m, m₀, ⟨hs, hwire, htype, ⟨_, lifeStep_receive hdigest hkeys hpass, rfl⟩,
    hunverified⟩, hhist, rfl, rfl, hblock, hblock'⟩

end StaleEntries

/-- A block that spends the coin of value 10. -/
def spendingBlock : Block :=
  { emptyBlock with txs := [{ inputs := [⟨0, 0⟩], outputs := [⟨10, 1⟩] }] }

/-- A message verifies whose block was found in the cache, with a transaction. -/
theorem cached_message_verifies :
    letI := referencePlatform
    ∃ s s' m, Reachable (LifeInit 4 1) (Guarded CacheCurrent LifeStep) s ∧
      Guarded CacheCurrent LifeStep s (.receive m) s' ∧ s'.hist = .counted m :: s.hist ∧
      m.block.header.getID ∈ s.node.verifiedBlocks ∧ m.block.txs ≠ [] ∧
      m.block.verify s.node.utxolist s.node.walletIds = true := by
  let _ := referencePlatform
  have hmut : spendingBlock.isMutable = false := rfl
  have henc : Encodable spendingBlock.txs := ⟨_, rfl⟩
  have hverify : spendingBlock.verify [⟨0, 0, ⟨10, 1⟩⟩] [1] = true := by decide
  obtain ⟨s, m, m₀, digest, hs, _, hcurrent, hblock, hblock', hcached, hkeys, hdigest, _, _⟩ :=
    exists_cached 4 1 hmut henc hmut henc rfl hverify
  have hpass : s.node.passesVerify m.block = true := by
    rw [passesVerify, Bool.or_eq_true, decide_eq_true_eq]
    exact Or.inl hcached
  have hguarded : Guarded CacheCurrent LifeStep s (.receive m)
      (s.record (s.node.receive m) [.counted m]) := by
    refine ⟨fun _ _ => ⟨m₀, ?_, ?_⟩, lifeStep_receive hdigest hkeys hpass⟩
    · rw [hcurrent]
      exact List.mem_singleton.mpr rfl
    · rw [hblock.txs, hblock'.txs]
  refine ⟨s, _, m, hs, hguarded, rfl, hcached, ?_, counted_verifies 4 1 s _ m hs hguarded rfl⟩
  rw [hblock'.txs]
  exact List.cons_ne_nil _ _

/--
An `ECHO` is counted although its block does not verify: after other lists were
set, and for other transactions under the header of a verified block.
-/
theorem stale_verifications :
    letI := referencePlatform
    (∃ s m m₀, CountsUnverified 4 1 s m ∧ s.hist = [.counted m₀] ∧
      m₀.block.txs = m.block.txs) ∧
    ∃ s m m₀, CountsUnverified 4 1 s m ∧ s.hist = [.counted m₀] ∧
      m₀.block.header = m.block.header ∧
      m₀.block.verify s.node.utxolist s.node.walletIds = true := by
  let _ := referencePlatform
  have henc : Encodable spendingBlock.txs := ⟨_, rfl⟩
  have hspent : spendingBlock.verify [] [] = false := by decide
  constructor
  · obtain ⟨s, m, m₀, hcounts, hhist, _, _, hblock, hblock'⟩ := exists_stale_count 4 1
      (b := spendingBlock) rfl henc rfl henc rfl
      (show spendingBlock.verify [⟨0, 0, ⟨10, 1⟩⟩] [1] = true by decide) hspent
    exact ⟨s, m, m₀, hcounts, hhist, hblock.txs.trans hblock'.txs.symm⟩
  · obtain ⟨s, m, m₀, hcounts, hhist, hutxo, hwallets, hblock, hblock'⟩ := exists_stale_count 4 1
      (b := emptyBlock) rfl ⟨[], rfl⟩ rfl henc rfl (show emptyBlock.verify [] [] = true by decide)
      hspent
    refine ⟨s, m, m₀, hcounts, hhist, hblock.header.trans hblock'.header.symm, ?_⟩
    rw [hutxo, hwallets, verify_of_wired hblock.txs]
    decide

end CosiCoin
