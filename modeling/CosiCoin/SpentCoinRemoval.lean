import CosiCoin.BlockVerification
import CosiCoin.DoubleSpendControl
import CosiCoin.SpendingBounds

/-!
# COSICOIN: the coins an agreed block removes

"Delete the used UTXOs": after `OnAgreeBlk` the inputs of the block should be gone
and every other coin still there.  The positions are looked up in a copy of the
list and erased from the list itself, so the second erasure of a transaction hits
the right coin only when its position is smaller than the first.

`Transaction.ErasesInOrder` is the condition under which every erasure hits.  It is
enough for each transaction by itself.  It is also necessary: a wrong erasure
removes a coin the block does not spend, or one that a later transaction will not
find; since every input that is found erases one coin, too many coins would be left
in the end.
-/

namespace CosiCoin

open Validator PositionalErase

section Positions

variable {l l' : UTXOlist} {inputs : List Input}

theorem lt_of_mem_spentPositions
    {p : Nat}
    (h : p ∈ spentPositions l inputs) :
    p < l.length := by
  obtain ⟨i, _, hp⟩ := List.mem_filterMap.mp h
  exact (UTXOlist.index_spec hp).1

/-- The coins at the recorded positions are the coins the inputs refer to. -/
theorem mem_recorded_spentPositions
    (hl : l.outpoints.Nodup)
    {u : UTXO} :
    u ∈ recorded l (spentPositions l inputs) ↔ u ∈ l ∧ u.outpoint ∈ inputs := by
  rw [mem_recorded]
  constructor
  · rintro ⟨p, hp, hu⟩
    obtain ⟨i, hi, hindex⟩ := List.mem_filterMap.mp hp
    obtain ⟨hlt, hpi⟩ := UTXOlist.index_spec hindex
    obtain rfl : l[p] = u := by simpa [List.getElem?_eq_getElem hlt] using hu
    rw [hpi]
    exact ⟨List.getElem_mem hlt, hi⟩
  · rintro ⟨hu, hi⟩
    obtain ⟨p, hindex⟩ := (UTXOlist.index_isSome_iff l u.outpoint).mpr (List.mem_map_of_mem hu)
    obtain ⟨hlt, hpu⟩ := UTXOlist.index_spec hindex
    have hsame : l[p] = u := List.inj_on_of_nodup_map hl (List.getElem_mem hlt) hu hpu
    refine ⟨p, List.mem_filterMap.mpr ⟨u.outpoint, hi, hindex⟩, ?_⟩
    rw [List.getElem?_eq_getElem hlt, hsame]

theorem nodup_spentPositions
    (h : inputs.Nodup) :
    (spentPositions l inputs).Nodup := by
  refine h.filterMap ?_
  intro i j p hi hj
  obtain ⟨hlt, hpi⟩ := UTXOlist.index_spec hi
  obtain ⟨_, hpj⟩ := UTXOlist.index_spec hj
  exact hpi.symm.trans hpj

/-- Every input that is found gives one position. -/
theorem length_spentPositions
    (l : UTXOlist) (inputs : List Input) :
    (spentPositions l inputs).length = (inputs.filter (· ∈ l.outpoints)).length := by
  induction inputs with
  | nil =>
      rfl
  | cons i inputs ih =>
      by_cases hi : i ∈ l.outpoints
      · obtain ⟨p, hp⟩ := (UTXOlist.index_isSome_iff l i).mpr hi
        rw [spentPositions, List.filterMap_cons_some hp,
          List.filter_cons_of_pos (by simpa using hi), List.length_cons, List.length_cons, ← ih]
        rfl
      · have hnone := (UTXOlist.index_eq_none_iff l i).mpr hi
        rw [spentPositions, List.filterMap_cons_none hnone,
          List.filter_cons_of_neg (by simpa using hi), ← ih]
        rfl

/-- The order of the recorded positions, said with the outpoints of the list. -/
theorem spentPositions_pairwise_gt_iff
    (l : UTXOlist) (inputs : List Input) :
    (spentPositions l inputs).Pairwise (· > ·) ↔
      inputs.Pairwise fun i j => i ∈ l.outpoints → j ∈ l.outpoints →
        l.outpoints.idxOf j < l.outpoints.idxOf i := by
  rw [spentPositions, List.pairwise_filterMap]
  have hpair : ∀ i j : Input,
      (∀ p, l.index i = some p → ∀ q, l.index j = some q → p > q) ↔
        (i ∈ l.outpoints → j ∈ l.outpoints → l.outpoints.idxOf j < l.outpoints.idxOf i) := by
    intro i j
    constructor
    · intro h hi hj
      obtain ⟨p, hp⟩ := (UTXOlist.index_isSome_iff l i).mpr hi
      obtain ⟨q, hq⟩ := (UTXOlist.index_isSome_iff l j).mpr hj
      have hlt := h p hp q hq
      rw [index_eq_idxOf hp, index_eq_idxOf hq] at hlt
      exact hlt
    · intro h p hp q hq
      rw [index_eq_idxOf hp, index_eq_idxOf hq]
      exact h ((UTXOlist.index_isSome_iff l i).mp ⟨p, hp⟩)
        ((UTXOlist.index_isSome_iff l j).mp ⟨q, hq⟩)
  constructor
  · intro h
    exact h.imp fun hij => (hpair _ _).mp hij
  · intro h
    exact h.imp fun hij => (hpair _ _).mpr hij

/-- Without other coins the order of the positions is the same. -/
theorem spentPositions_pairwise_gt_of_sublist
    {l l' : UTXOlist} {inputs : List Input}
    (hsub : l'.Sublist l)
    (hl : l.outpoints.Nodup)
    (hdesc : (spentPositions l inputs).Pairwise (· > ·)) :
    (spentPositions l' inputs).Pairwise (· > ·) := by
  have hsub' : l'.outpoints.Sublist l.outpoints := hsub.map _
  rw [spentPositions_pairwise_gt_iff] at hdesc ⊢
  refine hdesc.imp ?_
  intro i j hij hi hj
  rw [idxOf_lt_idxOf_iff_of_sublist hsub' hl hj hi]
  exact hij (hsub'.subset hi) (hsub'.subset hj)

end Positions

section Order

/--
The condition on a transaction and the list of its sender: there is an output for
every input, and the inputs stand in decreasing order of their positions.
-/
structure Transaction.ErasesInOrder (t : Transaction) (l : UTXOlist) : Prop where
  outputs : t.inputs.length ≤ t.outputs.length
  decreasing : (spentPositions l t.inputs).Pairwise (· > ·)

variable {t : Transaction} {l l' : UTXOlist}

theorem Transaction.ErasesInOrder.inRange
    (h : t.ErasesInOrder l) :
    t.InRange l := by
  intro k input hk p hp
  have hlt : k < t.inputs.length := (List.getElem?_eq_some_iff.mp hk).1
  refine ⟨lt_of_lt_of_le hlt h.outputs, ?_⟩
  have hsplit : t.inputs = t.inputs.take k ++ input :: t.inputs.drop (k + 1) := by
    rw [← (List.getElem?_eq_some_iff.mp hk).2, List.cons_getElem_drop_succ, List.take_append_drop]
  have hpositions : spentPositions l t.inputs =
      spentPositions l (t.inputs.take k) ++ p :: spentPositions l (t.inputs.drop (k + 1)) := by
    conv_lhs => rw [hsplit]
    unfold spentPositions
    rw [List.filterMap_append, List.filterMap_cons_some hp]
  refine add_lt_of_pairwise_gt h.decreasing (fun _ => lt_of_mem_spentPositions) ?_
  rw [hpositions]
  simp

theorem Transaction.ErasesInOrder.descending
    (h : t.ErasesInOrder l) :
    Descending l t.inputs := by
  have hpairs := h.decreasing
  rw [spentPositions, List.pairwise_filterMap] at hpairs
  exact hpairs.imp fun hij p q hp hq => le_of_lt (hij p hp q hq)

/-- Erasing other coins keeps the order. -/
theorem Transaction.ErasesInOrder.of_sublist
    (h : t.ErasesInOrder l)
    (hsub : l'.Sublist l)
    (hl : l.outpoints.Nodup) :
    t.ErasesInOrder l' :=
  ⟨h.outputs, spentPositions_pairwise_gt_of_sublist hsub hl h.decreasing⟩

/-- The order among coins that are left is the order they had. -/
theorem Transaction.ErasesInOrder.of_left
    (h : t.ErasesInOrder l')
    (hsub : l'.Sublist l)
    (hl : l.outpoints.Nodup)
    (hown : ∀ i ∈ t.inputs, i ∈ l'.outpoints) :
    t.ErasesInOrder l := by
  have hsub' : l'.outpoints.Sublist l.outpoints := hsub.map _
  refine ⟨h.outputs, ?_⟩
  have hpairs := h.decreasing
  rw [spentPositions_pairwise_gt_iff] at hpairs ⊢
  refine hpairs.imp_of_mem ?_
  intro i j himem hjmem hij _ _
  have hi := hown i himem
  have hj := hown j hjmem
  rw [← idxOf_lt_idxOf_iff_of_sublist hsub' hl hj hi]
  exact hij hi hj

end Order

section Application

/-- The coins in `m'` are those in `m` without the inputs. -/
structure SpentRemoved (m m' : UtxoMap) (inputs : List Input) : Prop where
  gone : ∀ w, ∀ i ∈ inputs, i ∉ (UtxoMap.get m' w).outpoints
  kept : ∀ w, ∀ u ∈ UtxoMap.get m w, u.outpoint ∉ inputs → u ∈ UtxoMap.get m' w

/-- Applying the block removes exactly the coins it spends. -/
def Validator.RemovesSpent (v : Validator) (b : Block) : Prop :=
  ∃ v', v.onAgreeBlk b = some v' ∧ SpentRemoved v.utxoSets v'.utxoSets b.inputs

/-- The condition on a block: each transaction erases in order, in the lists before the block. -/
def Block.ErasesInOrder (b : Block) (m : UtxoMap) : Prop :=
  ∀ t ∈ b.txs, t.ErasesInOrder (UtxoMap.get m t.walletId)

variable {m m₁ m' : UtxoMap} {t : Transaction} {txs : List Transaction}

/-- A transaction that erases in order keeps the coins it does not spend. -/
theorem agreeTransaction_kept
    (h : agreeTransaction m t = some m₁)
    (hm : UtxoMap.DistinctOutpoints m)
    (ht : t.ErasesInOrder (UtxoMap.get m t.walletId))
    {w : UInt32} {u : UTXO}
    (hu : u ∈ UtxoMap.get m w)
    (hunspent : u.outpoint ∉ t.inputs) :
    u ∈ UtxoMap.get m₁ w := by
  by_cases hw : w = t.walletId
  · subst hw
    have hgone := fun i => agreeTransaction_gone (i := i) h hm ht.descending
    rw [agreeTransaction_eq_some h, UtxoMap.get_insert_self] at hgone ⊢
    set l := UtxoMap.get m t.walletId
    have hl : l.outpoints.Nodup := hm.1 t.walletId
    have hperm := erasePositions_perm hl.of_map
      (ht.decreasing.imp fun hlt => ne_of_gt hlt)
      (fun _ => lt_of_mem_spentPositions)
      (by
        intro x hx hleft
        obtain ⟨_, hspent⟩ := (mem_recorded_spentPositions hl).mp hx
        exact hgone x.outpoint hspent (List.mem_map_of_mem hleft))
    rcases List.mem_append.mp (hperm.mem_iff.mpr hu) with hleft | hrec
    · exact hleft
    · exact absurd ((mem_recorded_spentPositions hl).mp hrec).2 hunspent
  · rw [agreeTransaction_eq_some h, UtxoMap.get_insert_of_ne _ _ hw]
    exact hu

/-- Transactions that erase in order are applied and keep what they do not spend. -/
theorem foldlM_agreeTransaction_kept
    {txs : List Transaction} :
    ∀ {m : UtxoMap}, UtxoMap.DistinctOutpoints m →
      (∀ t ∈ txs, t.ErasesInOrder (UtxoMap.get m t.walletId)) →
      ∃ m', txs.foldlM agreeTransaction m = some m' ∧
        ∀ w, ∀ u ∈ UtxoMap.get m w, u.outpoint ∉ txs.flatMap Transaction.inputs →
          u ∈ UtxoMap.get m' w := by
  induction txs with
  | nil =>
      intro m _ _
      exact ⟨m, rfl, fun _ _ hu _ => hu⟩
  | cons t txs ih =>
      intro m hm horder
      obtain ⟨ht, hrest⟩ := List.forall_mem_cons.mp horder
      obtain ⟨m₁, hm₁⟩ := Option.isSome_iff_exists.mp
        ((agreeTransaction_isSome_iff m t).mpr ht.inRange)
      have hsub := agreeTransaction_sublist hm₁
      obtain ⟨m', hm', hkept⟩ := ih (hm.of_sublist hsub) fun s hs =>
        (hrest s hs).of_sublist (hsub s.walletId) (hm.1 s.walletId)
      refine ⟨m', ?_, ?_⟩
      · rw [List.foldlM_cons, hm₁]
        exact hm'
      · intro w u hu hunspent
        rw [List.flatMap_cons, List.mem_append, not_or] at hunspent
        exact hkept w u (agreeTransaction_kept hm₁ hm ht hu hunspent.1) hunspent.2

/--
All accesses are inside their vectors if each transaction of the block has an output
for every input and its inputs stand in decreasing order in the lists before the call.
-/
theorem accessesInRange_of_erasesInOrder
    {v : Validator} {b : Block}
    (hdistinct : UtxoMap.DistinctOutpoints v.utxoSets)
    (horder : b.ErasesInOrder v.utxoSets) :
    v.AccessesInRange b := by
  obtain ⟨m', hm', _⟩ := foldlM_agreeTransaction_kept hdistinct horder
  rw [Validator.AccessesInRange, onAgreeBlk, hm']
  rfl

/-- A block that erases in order is applied as documented. -/
theorem removesSpent_of_erasesInOrder
    {v : Validator} {b : Block}
    (h : SpendsOwnCoins v b)
    (horder : b.ErasesInOrder v.utxoSets) :
    v.RemovesSpent b := by
  obtain ⟨m', hm', hkept⟩ := foldlM_agreeTransaction_kept h.distinct horder
  refine ⟨{ v with utxoSets := m' }, ?_, ?_, hkept⟩
  · rw [onAgreeBlk, hm']
    rfl
  · intro w i hi hleft
    obtain ⟨t, ht, hit⟩ := Block.mem_inputs.mp hi
    have hbefore : i ∈ (UtxoMap.get v.utxoSets w).outpoints :=
      ((foldlM_agreeTransaction_sublist hm' w).map _).subset hleft
    -- the coin can only be in the list of the sender
    obtain rfl := h.distinct.2 w t.walletId i hbefore (h.ownCoins t ht i hit)
    exact foldlM_agreeTransaction_gone hm' h.distinct (fun s hs => (horder s hs).descending)
      t ht i hit hleft

end Application

section Counting

/-- The inputs of a wallet in a list of transactions. -/
def spentBy (w : UInt32) (txs : List Transaction) : List Input :=
  (txs.filter fun t => t.walletId = w).flatMap Transaction.inputs

variable {m m₁ m' : UtxoMap} {t : Transaction} {txs : List Transaction}

theorem mem_spentBy
    {w : UInt32} {i : Input} :
    i ∈ spentBy w txs ↔ ∃ t ∈ txs, t.walletId = w ∧ i ∈ t.inputs := by
  simp [spentBy, and_assoc]

theorem spentBy_sublist
    (w : UInt32) (txs : List Transaction) :
    (spentBy w txs).Sublist (txs.flatMap Transaction.inputs) :=
  List.filter_sublist.flatMap _

/-- A list loses at most one coin for every input of its wallet that it holds. -/
theorem length_le_of_agreeTransaction
    (h : agreeTransaction m t = some m₁)
    (w : UInt32) :
    (UtxoMap.get m w).length ≤ (UtxoMap.get m₁ w).length +
      ((spentBy w [t]).filter (· ∈ (UtxoMap.get m w).outpoints)).length := by
  rw [agreeTransaction_eq_some h]
  by_cases hw : w = t.walletId
  · subst hw
    have hspent : spentBy t.walletId [t] = t.inputs := by simp [spentBy]
    rw [UtxoMap.get_insert_self, hspent, ← length_spentPositions]
    exact length_le_length_erasePositions_add _ _
  · rw [UtxoMap.get_insert_of_ne _ _ hw]
    omega

theorem spentBy_cons
    (w : UInt32) (t : Transaction) (txs : List Transaction) :
    spentBy w (t :: txs) = spentBy w [t] ++ spentBy w txs := by
  unfold spentBy
  rw [← List.flatMap_append, ← List.filter_append, List.singleton_append]

theorem length_le_of_foldlM
    {txs : List Transaction} :
    ∀ {m m' : UtxoMap}, txs.foldlM agreeTransaction m = some m' →
      ∀ w, (UtxoMap.get m w).length ≤ (UtxoMap.get m' w).length +
        ((spentBy w txs).filter (· ∈ (UtxoMap.get m w).outpoints)).length := by
  induction txs with
  | nil =>
      intro m m' h w
      obtain rfl := Option.some.inj h
      exact Nat.le_add_right _ _
  | cons t txs ih =>
      intro m m' h w
      rw [List.foldlM_cons] at h
      obtain ⟨m₁, hm₁, hrest⟩ := Option.bind_eq_some_iff.mp h
      have hstep := length_le_of_agreeTransaction hm₁ w
      have htail := ih hrest w
      have hsub : (UtxoMap.get m₁ w).outpoints.Sublist (UtxoMap.get m w).outpoints :=
        (agreeTransaction_sublist hm₁ w).map _
      -- what is found later was there before
      have hfewer : ((spentBy w txs).filter (· ∈ (UtxoMap.get m₁ w).outpoints)).length ≤
          ((spentBy w txs).filter (· ∈ (UtxoMap.get m w).outpoints)).length := by
        refine (List.monotone_filter_right _ ?_).length_le
        intro i hi
        rw [decide_eq_true_eq] at hi ⊢
        exact hsub.subset hi
      rw [spentBy_cons, List.filter_append, List.length_append]
      omega

/-- When exactly the spent coins are removed, a list splits into what is left and what is spent. -/
theorem spentRemoved_perm
    (hsub : ∀ w, (UtxoMap.get m' w).Sublist (UtxoMap.get m w))
    (hm : UtxoMap.DistinctOutpoints m)
    (hnodup : (txs.flatMap Transaction.inputs).Nodup)
    (hown : ∀ t ∈ txs, ∀ i ∈ t.inputs, i ∈ (UtxoMap.get m t.walletId).outpoints)
    (hremoved : SpentRemoved m m' (txs.flatMap Transaction.inputs))
    (w : UInt32) :
    ((UtxoMap.get m' w).outpoints ++ spentBy w txs).Perm (UtxoMap.get m w).outpoints := by
  have hsub' : (UtxoMap.get m' w).outpoints.Sublist (UtxoMap.get m w).outpoints :=
    (hsub w).map _
  have hleft : ((UtxoMap.get m' w).outpoints ++ spentBy w txs).Nodup :=
    ((hm.1 w).sublist hsub').append (hnodup.sublist (spentBy_sublist w txs))
      fun i hi hspent => hremoved.gone w i ((spentBy_sublist w txs).subset hspent) hi
  rw [List.perm_ext_iff_of_nodup hleft (hm.1 w)]
  intro i
  rw [List.mem_append]
  constructor
  · rintro (hi | hi)
    · exact hsub'.subset hi
    · obtain ⟨t, ht, rfl, hit⟩ := mem_spentBy.mp hi
      exact hown t ht i hit
  · intro hi
    by_cases hspent : i ∈ txs.flatMap Transaction.inputs
    · obtain ⟨t, ht, hit⟩ := List.mem_flatMap.mp hspent
      obtain rfl := hm.2 w t.walletId i hi (hown t ht i hit)
      exact Or.inr (mem_spentBy.mpr ⟨t, ht, rfl, hit⟩)
    · obtain ⟨u, hu, rfl⟩ := List.mem_map.mp hi
      exact Or.inl (List.mem_map_of_mem (hremoved.kept w u hu hspent))

/-- The first transaction and the others are applied and remove exactly the coins they spend. -/
structure RemovedExactly
    (m m₁ m' : UtxoMap) (t : Transaction) (txs : List Transaction) : Prop where
  first : agreeTransaction m t = some m₁
  others : txs.foldlM agreeTransaction m₁ = some m'
  distinct : UtxoMap.DistinctOutpoints m
  nodup : ((t :: txs).flatMap Transaction.inputs).Nodup
  ownCoins : ∀ s ∈ t :: txs, ∀ i ∈ s.inputs, i ∈ (UtxoMap.get m s.walletId).outpoints
  removed : SpentRemoved m m' ((t :: txs).flatMap Transaction.inputs)

namespace RemovedExactly

variable (h : RemovedExactly m m₁ m' t txs)

include h

/-- After the first transaction all other inputs are found in the lists and no coin is too many. -/
theorem length_after_first
    (w : UInt32) :
    ((spentBy w txs).filter (· ∈ (UtxoMap.get m₁ w).outpoints)).length = (spentBy w txs).length ∧
    (UtxoMap.get m₁ w).length = (UtxoMap.get m' w).length + (spentBy w txs).length := by
  have hsub : ∀ w, (UtxoMap.get m' w).Sublist (UtxoMap.get m w) := fun w =>
    (foldlM_agreeTransaction_sublist h.others w).trans (agreeTransaction_sublist h.first w)
  have hlength := (spentRemoved_perm hsub h.distinct h.nodup h.ownCoins h.removed w).length_eq
  rw [spentBy_cons, List.length_append, List.length_append, UTXOlist.outpoints,
    UTXOlist.outpoints, List.length_map, List.length_map] at hlength
  have hfirst := length_le_of_agreeTransaction h.first w
  have hrest := length_le_of_foldlM h.others w
  have hle := List.length_filter_le (fun i => decide (i ∈ (UtxoMap.get m w).outpoints))
    (spentBy w [t])
  have hle' := List.length_filter_le (fun i => decide (i ∈ (UtxoMap.get m₁ w).outpoints))
    (spentBy w txs)
  omega

theorem own_after_first :
    ∀ s ∈ txs, ∀ i ∈ s.inputs, i ∈ (UtxoMap.get m₁ s.walletId).outpoints := by
  intro s hs i hi
  have hsame := (h.length_after_first s.walletId).1
  have hmem : i ∈ spentBy s.walletId txs := mem_spentBy.mpr ⟨s, hs, rfl, hi⟩
  exact of_decide_eq_true (List.length_filter_eq_length_iff.mp hsame i hmem)

/-- After the first transaction a list holds what is left in the end and what the others spend. -/
theorem perm_after_first
    (w : UInt32) :
    ((UtxoMap.get m' w).outpoints ++ spentBy w txs).Perm (UtxoMap.get m₁ w).outpoints := by
  have hsub : (UtxoMap.get m' w).outpoints.Sublist (UtxoMap.get m₁ w).outpoints :=
    (foldlM_agreeTransaction_sublist h.others w).map _
  have hdistinct : UtxoMap.DistinctOutpoints m₁ :=
    h.distinct.of_sublist (agreeTransaction_sublist h.first)
  have hspent : (spentBy w txs).Sublist ((t :: txs).flatMap Transaction.inputs) :=
    (spentBy_sublist w txs).trans (List.sublist_append_right _ _)
  have hparts : ((UtxoMap.get m' w).outpoints ++ spentBy w txs).Nodup := by
    refine ((hdistinct.1 w).sublist hsub).append (h.nodup.sublist hspent) ?_
    intro i hi hmem
    exact h.removed.gone w i (hspent.subset hmem) hi
  have hsubset : (UtxoMap.get m' w).outpoints ++ spentBy w txs ⊆ (UtxoMap.get m₁ w).outpoints := by
    intro i hi
    rcases List.mem_append.mp hi with hi | hi
    · exact hsub.subset hi
    · obtain ⟨s, hs, rfl, his⟩ := mem_spentBy.mp hi
      exact h.own_after_first s hs i his
  refine (hparts.subperm hsubset).perm_of_length_le ?_
  rw [List.length_append, UTXOlist.outpoints, UTXOlist.outpoints, List.length_map,
    List.length_map, (h.length_after_first w).2]

theorem gone_after_first
    (w : UInt32) :
    ∀ i ∈ t.inputs, i ∉ (UtxoMap.get m₁ w).outpoints := by
  intro i hi hleft
  rcases List.mem_append.mp ((h.perm_after_first w).mem_iff.mpr hleft) with hend | hspent
  · exact h.removed.gone w i (List.mem_append_left _ hi) hend
  · exact (List.nodup_append.mp h.nodup).2.2 i hi i ((spentBy_sublist w txs).subset hspent) rfl

theorem removed_after_first :
    SpentRemoved m₁ m' (txs.flatMap Transaction.inputs) := by
  constructor
  · intro w i hi
    exact h.removed.gone w i (List.mem_append_right _ hi)
  · intro w u hu hunspent
    refine h.removed.kept w u ((agreeTransaction_sublist h.first w).subset hu) ?_
    rw [List.flatMap_cons, List.mem_append, not_or]
    exact ⟨fun hspent => h.gone_after_first w u.outpoint hspent (List.mem_map_of_mem hu), hunspent⟩

end RemovedExactly

/-- A transaction that is applied and leaves none of its inputs erases in order. -/
theorem erasesInOrder_of_gone
    (h : agreeTransaction m t = some m₁)
    (hm : UtxoMap.DistinctOutpoints m)
    (hnodup : t.inputs.Nodup)
    (hown : ∀ i ∈ t.inputs, i ∈ (UtxoMap.get m t.walletId).outpoints)
    (hgone : ∀ i ∈ t.inputs, i ∉ (UtxoMap.get m₁ t.walletId).outpoints) :
    t.ErasesInOrder (UtxoMap.get m t.walletId) := by
  have hrange : t.InRange (UtxoMap.get m t.walletId) := by
    rw [← agreeTransaction_isSome_iff, h]
    rfl
  rw [agreeTransaction_eq_some h, UtxoMap.get_insert_self] at hgone
  have hl := hm.1 t.walletId
  constructor
  · by_contra hfewer
    -- the first input without an output is found all the same
    have hlt : t.outputs.length < t.inputs.length := by omega
    obtain ⟨p, hp⟩ := (UTXOlist.index_isSome_iff _ _).mpr (hown _ (List.getElem_mem hlt))
    have hread := (hrange _ _ (List.getElem?_eq_getElem hlt) p hp).1
    omega
  · refine pairwise_gt_of_gone hl.of_map (nodup_spentPositions hnodup)
      (fun _ => lt_of_mem_spentPositions) ?_
    intro u hu hleft
    obtain ⟨_, hspent⟩ := (mem_recorded_spentPositions hl).mp hu
    exact hgone u.outpoint hspent (List.mem_map_of_mem hleft)

/-- Transactions that remove exactly the spent coins erase in order. -/
theorem erasesInOrder_of_spentRemoved
    {txs : List Transaction} :
    ∀ {m m' : UtxoMap}, txs.foldlM agreeTransaction m = some m' →
      UtxoMap.DistinctOutpoints m →
      (txs.flatMap Transaction.inputs).Nodup →
      (∀ t ∈ txs, ∀ i ∈ t.inputs, i ∈ (UtxoMap.get m t.walletId).outpoints) →
      SpentRemoved m m' (txs.flatMap Transaction.inputs) →
      ∀ t ∈ txs, t.ErasesInOrder (UtxoMap.get m t.walletId) := by
  induction txs with
  | nil =>
      intro m m' _ _ _ _ _ t ht
      cases ht
  | cons t txs ih =>
      intro m m' h hm hnodup hown hremoved
      rw [List.foldlM_cons] at h
      obtain ⟨m₁, hm₁, hm'⟩ := Option.bind_eq_some_iff.mp h
      have hexact : RemovedExactly m m₁ m' t txs := ⟨hm₁, hm', hm, hnodup, hown, hremoved⟩
      have hsub := agreeTransaction_sublist hm₁
      obtain ⟨hhead, hrest, _⟩ := List.nodup_append.mp hnodup
      refine List.forall_mem_cons.mpr ⟨?_, ?_⟩
      · exact erasesInOrder_of_gone hm₁ hm hhead (hown t List.mem_cons_self)
          (hexact.gone_after_first t.walletId)
      · intro s hs
        have horder := ih hm' (hm.of_sublist hsub) hrest hexact.own_after_first
          hexact.removed_after_first s hs
        exact horder.of_left (hsub s.walletId) (hm.1 s.walletId) (hexact.own_after_first s hs)

end Counting

section Blocks

/-- From 2 ^ 31 on the count is negative and compares as a large number. -/
theorem intToUInt64_toNat_of_ge
    {n : Nat}
    (hlarge : ¬ n < 2 ^ 31)
    (hlen : n < 2 ^ 32) :
    (intToUInt64 (Int32.ofNat n)).toNat = n + (2 ^ 64 - 2 ^ 32) := by
  have hsign : (BitVec.ofNat 32 n).msb = true := by
    rw [BitVec.msb_eq_decide, BitVec.toNat_ofNat, Nat.mod_eq_of_lt hlen]
    exact decide_eq_true (by omega)
  have hext : (intToUInt64 (Int32.ofNat n)).toNat =
      ((BitVec.ofNat 32 n).signExtend 64).toNat := rfl
  rw [hext, BitVec.toNat_signExtend, hsign, if_pos rfl, BitVec.toNat_setWidth,
    BitVec.toNat_ofNat]
  omega

/-- Below 2 ^ 32 inputs no input of a verified block occurs twice. -/
theorem nodup_of_verify
    {b : Block} {utxolist : UTXOlist} {receiverIDs : List UInt32}
    (hlen : b.inputs.length < 2 ^ 32)
    (h : b.verify utxolist receiverIDs = true) :
    b.inputs.Nodup := by
  by_cases hsmall : b.inputs.length < 2 ^ 31
  · exact ((verify_iff_nodup hsmall).mp h).2
  · -- a negative count is larger than any number of inputs
    rw [Block.verify, Bool.and_eq_true, beq_iff_eq] at h
    have hcard := List.toFinset_card_le b.inputs
    have hcount := congrArg UInt64.toNat h.2
    rw [intToUInt64_toNat_of_ge hsmall hlen, UInt64.toNat_ofNat'] at hcount
    omega

/--
A block that erases in order is applied as documented, and among the blocks
without a repeated input, which below 2 ^ 32 inputs are all verified ones, no
others are.
-/
theorem onAgreeBlk_removesSpent_iff
    (v : Validator) (b : Block)
    (h : SpendsOwnCoins v b) :
    (b.ErasesInOrder v.utxoSets → v.RemovesSpent b) ∧
    (b.inputs.length < 2 ^ 32 ∨ b.inputs.Nodup →
      v.RemovesSpent b → b.ErasesInOrder v.utxoSets) := by
  refine ⟨removesSpent_of_erasesInOrder h, ?_⟩
  rintro hdistinct ⟨v', hv', hremoved⟩
  have hnodup : b.inputs.Nodup := by
    rcases hdistinct with hlen | hnodup
    · obtain ⟨utxolist, receiverIDs, hverify⟩ := h.verified
      exact nodup_of_verify hlen hverify
    · exact hnodup
  obtain ⟨m', hm', rfl⟩ := Option.map_eq_some_iff.mp hv'
  exact erasesInOrder_of_spentRemoved hm' h.distinct hnodup h.ownCoins hremoved

/-- Two coins in the order of the list. -/
def ascendingBlock : Block :=
  { txs :=
      [{ inputs := [⟨0, 0⟩, ⟨1, 0⟩], outputs := [⟨10, 1⟩, ⟨5, 1⟩], senderID := 1, txID := 100 }]
    isMutable := false }

/-- The same two coins, the later one first. -/
def descendingBlock : Block :=
  { txs :=
      [{ inputs := [⟨1, 0⟩, ⟨0, 0⟩], outputs := [⟨10, 1⟩, ⟨5, 1⟩], senderID := 1, txID := 100 }]
    isMutable := false }

theorem ascendingBlock_spendsOwnCoins : SpendsOwnCoins threeCoinValidator ascendingBlock where
  distinct := threeCoinValidator_distinct
  verified := ⟨UtxoMap.all threeCoinValidator.utxoSets, threeCoinValidator.walletsIds, by decide⟩
  ownCoins := by decide

theorem descendingBlock_spendsOwnCoins : SpendsOwnCoins threeCoinValidator descendingBlock where
  distinct := threeCoinValidator_distinct
  verified := ⟨UtxoMap.all threeCoinValidator.utxoSets, threeCoinValidator.walletsIds, by decide⟩
  ownCoins := by decide

/-- In the order of the list the second coin stays and the third, which nobody spends, is lost. -/
theorem ascending_inputs_remove_another_coin :
    SpendsOwnCoins threeCoinValidator ascendingBlock ∧
    (threeCoinValidator.onAgreeBlk ascendingBlock).map (fun v => UtxoMap.get v.utxoSets 1) =
      some [⟨1, 0, ⟨5, 1⟩⟩] ∧
    ¬ threeCoinValidator.RemovesSpent ascendingBlock := by
  have happlied : (threeCoinValidator.onAgreeBlk ascendingBlock).map
      (fun v => UtxoMap.get v.utxoSets 1) = some [⟨1, 0, ⟨5, 1⟩⟩] := by
    decide
  refine ⟨ascendingBlock_spendsOwnCoins, happlied, ?_⟩
  rintro ⟨v', hv', hremoved⟩
  rw [hv', Option.map_some, Option.some.injEq] at happlied
  refine hremoved.gone 1 ⟨1, 0⟩ (by decide) ?_
  rw [happlied]
  decide

/-- With the later coin first both are removed and the third stays. -/
theorem descending_inputs_are_removed :
    threeCoinValidator.RemovesSpent descendingBlock := by
  refine (onAgreeBlk_removesSpent_iff threeCoinValidator descendingBlock
    descendingBlock_spendsOwnCoins).1 ?_
  intro t ht
  obtain rfl := List.mem_singleton.mp ht
  exact ⟨by decide, by decide⟩

end Blocks

end CosiCoin
