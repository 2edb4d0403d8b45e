import CosiCoin.BrachaAgreement
import CosiCoin.NodeLifetime

/-!
# COSICOIN: quorums of ECHO messages

`broadcastRound` sends `READY` for `floor((n + f + 1) / 2)` `ECHO` messages.
Rounded up, any two sets of that many validators share `f + 1` of them, and so a
correct one that has echoed both blocks.  Rounded down this is so only when
`n + f` is odd (`echoQuorums_intersect_iff`): otherwise two quorums can share the
`f` faulty validators and no other.
-/

namespace CosiCoin

open LabelledRuns Node QuorumCounting

/-- Any two sets of validators that meet the threshold share `f + 1` validators. -/
def QuorumsIntersect (n f : Nat) : Prop :=
  ∀ A B : Finset (Fin n), (n + f + 1) / 2 ≤ A.card → (n + f + 1) / 2 ≤ B.card →
    f + 1 ≤ (A ∩ B).card

/-- The quorums intersect if and only if the division leaves no remainder. -/
theorem quorumsIntersect_iff
    {n f : Nat}
    (hf : 3 * f < n) :
    QuorumsIntersect n f ↔ (n + f) % 2 = 1 := by
  have hcard : (Finset.univ : Finset (Fin n)).card = n := Finset.card_fin n
  constructor
  · intro hinter
    by_contra heven
    -- `n + f` is even: two quorums that cover all validators share only `f` of them
    obtain ⟨A, _, B, _, hA, hB, hAB⟩ :=
      exists_least_overlap (V := (Finset.univ : Finset (Fin n))) (q := (n + f + 1) / 2) (k := f)
        (by omega) (by omega)
    have hle := hinter A B (by omega) (by omega)
    omega
  · intro hodd A B hA hB
    have hsum := le_card_inter (Finset.subset_univ A) (Finset.subset_univ B)
    omega

section Nodes

variable [Platform]

/-- The node has enough `ECHO` messages for the hash. -/
def ReachesEchoes (n f : Nat) (s : NodeLife) (h : Str) : Prop :=
  (n + f + 1) / 2 ≤ s.node.echoThisRound.count h

/-- The validators whose `ECHO` for the hash the node has counted. -/
def echoers (s : NodeLife) (h : Str) : List UInt16 :=
  ballots .echo h (countedMessages s.hist)

/--
Two nodes of a committee `V` with the faulty validators `B`: only validators vote,
each is counted once per block, and a correct one echoes at most one block.
-/
structure EchoesOnce (V B : Finset UInt16) (s s' : NodeLife) : Prop where
  mem : ∀ h, (∀ v ∈ echoers s h, v ∈ V) ∧ ∀ v ∈ echoers s' h, v ∈ V
  once : ∀ h, (echoers s h).Nodup ∧ (echoers s' h).Nodup
  one : ∀ v ∈ V, v ∉ B → ∀ h h', v ∈ echoers s h → v ∈ echoers s' h' → h = h'

/-- Two nodes that follow the code do not reach the threshold for different blocks. -/
def OneBlockEchoed (n f : Nat) : Prop :=
  ∀ (V B : Finset UInt16), V.card = n → B ⊆ V → B.card ≤ f →
    ∀ s s', LifeReachable n f s → LifeReachable n f s' → EchoesOnce V B s s' →
      ∀ h h', ReachesEchoes n f s h → ReachesEchoes n f s' h' → h = h'

/-- The counter of a hash does not exceed the votes for it. -/
theorem count_le_echoers
    {n f : Nat} {s : NodeLife}
    (hs : LifeReachable n f s)
    (h : Str) :
    s.node.echoThisRound.count h ≤ (echoers s h).length := by
  rw [echoers, length_ballots]
  exact (recorded_of_reachable hs).echo h

theorem oneBlockEchoed_of_odd
    {n f : Nat}
    (hodd : (n + f) % 2 = 1) :
    OneBlockEchoed n f := by
  intro V B hV _ hB s s' hs hs' honce h h' hreach hreach'
  have hlen : (n + f + 1) / 2 ≤ (echoers s h).length := le_trans hreach (count_le_echoers hs h)
  have hlen' : (n + f + 1) / 2 ≤ (echoers s' h').length :=
    le_trans hreach' (count_le_echoers hs' h')
  have hmany : V.card + B.card < (echoers s h).length + (echoers s' h').length := by omega
  obtain ⟨v, hv, hv', hcorrect⟩ := exists_common_notMem (honce.once h).1 (honce.once h').2
    (honce.mem h).1 (honce.mem h').2 hmany
  exact honce.one v ((honce.mem h).1 v hv) hcorrect h h' hv hv'

/-- The echoes of a node that has counted a single one. -/
theorem mem_echoers_of_single
    {s : NodeLife} {m : Message} {h : Str} {v : UInt16}
    (hhist : s.hist = List.replicate 1 (.counted m)) :
    v ∈ echoers s h → h = m.block.header.getID ∧ v = m.block.validatorId := by
  intro hv
  rw [echoers, mem_ballots, hhist] at hv
  obtain ⟨m', hm', _, hhash, hid⟩ := hv
  obtain rfl : m' = m := by simpa [countedMessages] using hm'
  exact ⟨hhash.symm, hid.symm⟩

theorem nodup_echoers_of_single
    {s : NodeLife} {m : Message}
    (hhist : s.hist = List.replicate 1 (.counted m))
    (h : Str) :
    (echoers s h).Nodup := by
  have hlen : (echoers s h).length ≤ 1 := by
    rw [echoers, length_ballots, hhist]
    exact List.countP_le_length
  exact List.nodup_iff_count_le_one.mpr fun v => le_trans List.count_le_length hlen

/-- The threshold does its work if and only if `n + f` is odd. -/
theorem echoQuorums_intersect_iff
    (n f : Nat)
    (hf : 3 * f < n) :
    QuorumsIntersect n f ∧ OneBlockEchoed n f ↔ (n + f) % 2 = 1 := by
  constructor
  · rintro ⟨hinter, _⟩
    exact (quorumsIntersect_iff hf).mp hinter
  · intro hodd
    exact ⟨(quorumsIntersect_iff hf).mpr hodd, oneBlockEchoed_of_odd hodd⟩

end Nodes

/-- With four validators, one of them faulty, the threshold is right. -/
theorem four_validators_intersect :
    letI := referencePlatform
    QuorumsIntersect 4 1 ∧ OneBlockEchoed 4 1 := by
  let _ := referencePlatform
  exact (echoQuorums_intersect_iff 4 1 (by decide)).mpr (by decide)

/-- Two validators that are not faulty echo a block each, and both echoes are enough. -/
theorem two_validators_split_echoes :
    letI := referencePlatform
    3 * 0 < 2 ∧ ¬ QuorumsIntersect 2 0 ∧ ¬ OneBlockEchoed 2 0 := by
  let _ := referencePlatform
  refine ⟨by decide, ?_, ?_⟩
  · intro hinter
    exact absurd (hinter {0} {1} (by decide) (by decide)) (by decide)
  · intro hone
    obtain ⟨m, s, hs, _, hheader, hid, hhist, _, htracks⟩ :=
      exists_repeated_life 2 0 (b := emptyBlock) rfl rfl 0 (Or.inl rfl) 1
    obtain ⟨m', s', hs', _, hheader', hid', hhist', _, htracks'⟩ :=
      exists_repeated_life 2 0 (b := blockAfter (equalBytes 48)) rfl rfl 1 (Or.inl rfl) 1
    have honce : EchoesOnce {0, 1} ∅ s s' := by
      refine ⟨?_, ?_, ?_⟩
      · intro h
        refine ⟨fun v hv => ?_, fun v hv => ?_⟩
        · rw [(mem_echoers_of_single hhist hv).2, hid]
          decide
        · rw [(mem_echoers_of_single hhist' hv).2, hid']
          decide
      · intro h
        exact ⟨nodup_echoers_of_single hhist h, nodup_echoers_of_single hhist' h⟩
      · intro v _ _ h h' hv hv'
        have hzero := (mem_echoers_of_single hhist hv).2
        have hfirst := (mem_echoers_of_single hhist' hv').2
        rw [hzero, hid, hid'] at hfirst
        exact absurd hfirst (by decide)
    have hreach : ReachesEchoes 2 0 s emptyBlock.header.getID := by
      rw [ReachesEchoes, htracks.echo, Counter.count_only]
      decide
    have hreach' : ReachesEchoes 2 0 s' (blockAfter (equalBytes 48)).header.getID := by
      rw [ReachesEchoes, htracks'.echo, Counter.count_only]
      decide
    have hsame := hone {0, 1} ∅ (by decide) (by simp) (by decide) s s' hs hs' honce _ _ hreach
      hreach'
    have hne : Sha256.digest [] ≠ Sha256.digest (equalBytes 48 ++ []) := by decide +kernel
    exact hne hsame

end CosiCoin
