import CosiCoin.LabelledRuns
import CosiCoin.ValidatorLedger
import CosiCoin.WalletTransactions

/-!
# COSICOIN: the numbers of transactions

Two counters give out transaction numbers.  `InitializeCoins` numbers the first
coins from 0 on, one for each wallet id, and the wallets of a process number
their transactions from 100 on with the shared counter `tx_id_`; its comment says
that the numbers below 100 are used for the first coins.

Nothing bounds the number of wallet ids: with more than 100 of them the coin
number 100 and the first created transaction have the same number.
-/

namespace CosiCoin

open LabelledRuns Validator

section Counting

/-- The values a 32-bit counter takes in `k` turns, starting from `a`. -/
def numbersFrom (a k : Nat) : List UInt32 :=
  (List.range k).map fun i => UInt32.ofNat (a + i)

theorem numbersFrom_succ
    (a k : Nat) :
    numbersFrom a (k + 1) = numbersFrom a k ++ [UInt32.ofNat (a + k)] := by
  rw [numbersFrom, List.range_succ, List.map_append]
  rfl

theorem numbersFrom_cons
    (a k : Nat) :
    numbersFrom a (k + 1) = UInt32.ofNat a :: numbersFrom (a + 1) k := by
  rw [numbersFrom, List.range_succ_eq_map, List.map_cons, List.map_map, Nat.add_zero]
  congr 1
  apply List.map_congr_left
  intro i _
  rw [Function.comp_apply, Nat.succ_eq_add_one, Nat.add_assoc, Nat.add_comm 1 i]

theorem toNat_of_mem_numbersFrom
    {a k : Nat} {x : UInt32}
    (h : a + k ≤ 2 ^ 32)
    (hx : x ∈ numbersFrom a k) :
    a ≤ x.toNat ∧ x.toNat < a + k := by
  obtain ⟨i, hi, rfl⟩ := List.mem_map.mp hx
  have hlt : a + i < 2 ^ 32 := by
    have hi' := List.mem_range.mp hi
    omega
  rw [UInt32.toNat_ofNat_of_lt' hlt]
  have hi' := List.mem_range.mp hi
  omega

/-- A counter that does not run over repeats no value. -/
theorem nodup_numbersFrom
    {a k : Nat}
    (h : a + k ≤ 2 ^ 32) :
    (numbersFrom a k).Nodup := by
  refine (List.nodup_map_iff_inj_on List.nodup_range).mpr ?_
  intro i hi j hj hsame
  have hsmall : ∀ {n : Nat}, n ∈ List.range k → a + n < 2 ^ 32 := by
    intro n hn
    have hlt := List.mem_range.mp hn
    omega
  have hnat := congrArg UInt32.toNat hsame
  rw [UInt32.toNat_ofNat_of_lt' (hsmall hi), UInt32.toNat_ofNat_of_lt' (hsmall hj)] at hnat
  omega

/-- A list without repetitions has at most as many elements as there are values. -/
theorem length_le_of_nodup
    {l : List UInt32}
    (h : l.Nodup) :
    l.length ≤ 2 ^ 32 := by
  have hnat : (l.map UInt32.toNat).Nodup := h.map fun _ _ => UInt32.toNat_inj.mp
  have hsub : l.map UInt32.toNat ⊆ List.range (2 ^ 32) := by
    intro n hn
    obtain ⟨x, _, rfl⟩ := List.mem_map.mp hn
    exact List.mem_range.mpr x.toNat_lt
  have hle := (hnat.subperm hsub).length_le
  rwa [List.length_map, List.length_range] at hle

end Counting

section FirstCoins

/-- The loop of `InitializeCoins` numbers the coins one after the other. -/
theorem initLoop_transactionIds
    (coins : UInt64)
    (ids : List UInt32)
    (k : Nat)
    (m : UtxoMap)
    (l : UTXOlist) :
    (initLoop coins ids (UInt32.ofNat k) m l).2.map UTXO.transactionId =
      l.map UTXO.transactionId ++ numbersFrom k ids.length := by
  induction ids generalizing k m l with
  | nil => simp [initLoop, numbersFrom]
  | cons id ids ih =>
      have hnext : UInt32.ofNat k + 1 = UInt32.ofNat (k + 1) := by
        rw [UInt32.ofNat_add]
        rfl
      rw [initLoop, hnext, ih, List.map_append, List.append_assoc, List.length_cons,
        numbersFrom_cons]
      rfl

/-- The coins `InitializeCoins` gives out, in the order of the wallet ids. -/
def Validator.firstCoins (v : Validator) (coins : UInt64) : UTXOlist :=
  (v.initializeCoins coins).nodeUtxolist

theorem firstCoins_transactionIds
    (v : Validator)
    (coins : UInt64) :
    (v.firstCoins coins).map UTXO.transactionId = numbersFrom 0 v.walletsIds.length :=
  initLoop_transactionIds coins v.walletsIds 0 v.utxoSets []

end FirstCoins

section Numbers

/-- The wallets of a process, the counter they share and the transactions created so far. -/
structure WalletProcess where
  wallets : Nat → Wallet
  txId : UInt32 := 100
  created : List Transaction := []

/-- The created transactions are numbered from 100 on. -/
structure WalletProcess.Numbered (s : WalletProcess) : Prop where
  ids : s.created.map Transaction.txID = numbersFrom 100 s.created.length
  next : s.txId = UInt32.ofNat (100 + s.created.length)

/-- The names of the outputs of a transaction. -/
def Transaction.outputNames (t : Transaction) : List (UInt32 × Int) :=
  (List.range t.outputs.length).map fun i : Nat => (t.txID, Int.ofNat i)

/-- The names of all coins there have been: the first ones and the outputs of the transactions. -/
def coinNames (coins : UTXOlist) (created : List Transaction) : List (UInt32 × Int) :=
  coins.map (fun u => (u.transactionId, u.outputIndex.toInt)) ++
    created.flatMap Transaction.outputNames

/-- No transaction number is given out twice, and no name belongs to two coins. -/
structure UniqueIds (coins : UTXOlist) (created : List Transaction) : Prop where
  ids : (coins.map UTXO.transactionId ++ created.map Transaction.txID).Nodup
  names : (coinNames coins created).Nodup

theorem nodup_outputNames
    (t : Transaction) :
    t.outputNames.Nodup := by
  rw [Transaction.outputNames, List.nodup_map_iff_inj_on List.nodup_range]
  intro i _ j _ hsame
  exact Int.ofNat.inj (Prod.mk.inj hsame).2

/-- Distinct numbers give distinct names. -/
theorem uniqueIds_of_nodup
    {coins : UTXOlist} {created : List Transaction}
    (h : (coins.map UTXO.transactionId ++ created.map Transaction.txID).Nodup) :
    UniqueIds coins created := by
  obtain ⟨hcoins, hcreated, hdisjoint⟩ := List.nodup_append.mp h
  refine ⟨h, List.nodup_append.mpr ⟨?_, ?_, ?_⟩⟩
  · apply List.Nodup.of_map Prod.fst
    rw [List.map_map]
    exact hcoins
  · rw [List.nodup_flatMap]
    refine ⟨fun t _ => nodup_outputNames t, ?_⟩
    refine (List.pairwise_map.mp hcreated).imp ?_
    intro t t' hne name hname hname'
    obtain ⟨i, _, rfl⟩ := List.mem_map.mp hname
    obtain ⟨i', _, hsame⟩ := List.mem_map.mp hname'
    exact hne (Prod.mk.inj hsame).1.symm
  · intro name hname name' hname' hsame
    subst hsame
    obtain ⟨u, hu, rfl⟩ := List.mem_map.mp hname
    obtain ⟨t, ht, hout⟩ := List.mem_flatMap.mp hname'
    obtain ⟨i, _, heq⟩ := List.mem_map.mp hout
    exact hdisjoint _ (List.mem_map_of_mem hu) _ (List.mem_map_of_mem ht)
      (Prod.mk.inj heq).1.symm

/-- The coin number 100 and the first transaction collide. -/
theorem not_uniqueIds_of_many
    {v : Validator} {coins : UInt64} {s : WalletProcess}
    (hs : s.Numbered)
    (hmany : 100 < v.walletsIds.length)
    (hcreated : s.created ≠ []) :
    ¬ UniqueIds (v.firstCoins coins) s.created := by
  intro h
  have hids := h.ids
  rw [firstCoins_transactionIds, hs.ids] at hids
  have hpos : 0 < s.created.length := List.length_pos_iff.mpr hcreated
  have hcoin : (100 : UInt32) ∈ numbersFrom 0 v.walletsIds.length :=
    List.mem_map.mpr ⟨100, List.mem_range.mpr hmany, rfl⟩
  have htx : (100 : UInt32) ∈ numbersFrom 100 s.created.length :=
    List.mem_map.mpr ⟨0, List.mem_range.mpr hpos, rfl⟩
  exact (List.nodup_append.mp hids).2.2 _ hcoin _ htx rfl

end Numbers

section Wallets

variable [P : Platform]

/-- A wallet calls `CreateTx` on what its parser has read; an exception changes nothing. -/
inductive CreateStep : WalletProcess → Nat × Except String Json → WalletProcess → Prop
  | created
      (s : WalletProcess) (i : Nat) (parsed : Except String Json)
      (tx : Transaction) (w : Wallet) (next : UInt32)
      (h : (s.wallets i).createTx s.txId parsed = .ok (tx, w, next)) :
      CreateStep s (i, parsed)
        { wallets := Function.update s.wallets i w
          txId := next
          created := s.created ++ [tx] }
  | thrown
      (s : WalletProcess) (i : Nat) (parsed : Except String Json) (e : String)
      (h : (s.wallets i).createTx s.txId parsed = .error e) :
      CreateStep s (i, parsed) s

/-- A process before its first transaction. -/
def ProcessInit (s : WalletProcess) : Prop :=
  ∃ wallets, s = { wallets := wallets }

/-- The number of a created transaction is the counter, which goes on. -/
theorem createTx_txID
    {w w' : Wallet} {txId next : UInt32} {parsed : Except String Json} {tx : Transaction}
    (h : w.createTx txId parsed = .ok (tx, w', next)) :
    tx.txID = txId ∧ tx.senderID = w.id.toUInt16 ∧ next = txId + 1 := by
  obtain ⟨j, _, h⟩ := bind_eq_ok h
  obtain ⟨t, _, h⟩ := bind_eq_ok h
  have hres := Prod.mk.inj (Except.ok.inj h)
  obtain ⟨rfl, hrest⟩ := hres
  obtain ⟨_, rfl⟩ := Prod.mk.inj hrest
  exact ⟨rfl, rfl, rfl⟩

theorem numbered_step
    {s s' : WalletProcess} {a : Nat × Except String Json}
    (h : s.Numbered)
    (hstep : CreateStep s a s') :
    s'.Numbered := by
  cases hstep with
  | thrown i parsed e _ => exact h
  | created i parsed tx w next hcreate =>
      obtain ⟨htx, _, rfl⟩ := createTx_txID hcreate
      refine ⟨?_, ?_⟩
      · rw [List.map_append, h.ids, List.length_append, List.length_singleton, numbersFrom_succ,
          ← h.next, ← htx]
        rfl
      · rw [List.length_append, List.length_singleton, h.next, ← Nat.add_assoc,
          UInt32.ofNat_add (100 + s.created.length)]
        rfl

theorem numbered_of_reachable
    {s : WalletProcess}
    (h : Reachable ProcessInit CreateStep s) :
    s.Numbered := by
  refine h.invariant ?_ ?_
  · rintro _ ⟨wallets, rfl⟩
    exact ⟨rfl, rfl⟩
  · exact fun _ _ _ => numbered_step

/--
In every run, the numbers are unique if and only if there are at most 100 wallet
ids, or no transaction is created and the counter of the coins does not run over.
-/
theorem transaction_ids_unique_iff
    (v : Validator) (coins : UInt64) (s : WalletProcess)
    (hs : Reachable ProcessInit CreateStep s)
    (hfew : s.created.length < 2 ^ 32 - 100) :
    UniqueIds (v.firstCoins coins) s.created ↔
      v.walletsIds.length ≤ 100 ∨ (s.created = [] ∧ v.walletsIds.length ≤ 2 ^ 32) := by
  have hnumbered := numbered_of_reachable hs
  constructor
  · intro h
    by_contra hnot
    rw [not_or, not_and_or, not_le, not_le] at hnot
    obtain ⟨hmany, hcreated | hover⟩ := hnot
    · exact not_uniqueIds_of_many hnumbered hmany hcreated h
    · have hle := length_le_of_nodup (List.nodup_append.mp h.ids).1
      rw [firstCoins_transactionIds, numbersFrom, List.length_map, List.length_range] at hle
      omega
  · intro hcond
    apply uniqueIds_of_nodup
    rw [firstCoins_transactionIds, hnumbered.ids]
    rcases hcond with hfirst | ⟨hnone, hfits⟩
    · refine List.nodup_append.mpr ⟨nodup_numbersFrom (by omega), nodup_numbersFrom (by omega), ?_⟩
      -- the coins stay below 100, the transactions do not
      rintro x hx _ hy rfl
      have hcoin := toNat_of_mem_numbersFrom (by omega) hx
      have htx := toNat_of_mem_numbersFrom (by omega) hy
      omega
    · rw [hnone]
      show (numbersFrom 0 v.walletsIds.length ++ []).Nodup
      rw [List.append_nil]
      exact nodup_numbersFrom (by omega)

end Wallets

section TwoTransactions

variable [P : Platform]

/-- In a process any wallet can create another transaction. -/
theorem exists_next_created
    {s : WalletProcess}
    (hs : Reachable ProcessInit CreateStep s)
    (i : Nat) :
    ∃ s', Reachable ProcessInit CreateStep s' ∧ s'.created.length = s.created.length + 1 := by
  have hcreate := createTx_of_describes (s.wallets i) s.txId transferDocument_describes
  refine ⟨_, hs.next (.created s i (.ok transferDocument) _ _ _ hcreate), ?_⟩
  simp

/-- A process with two wallets, which have created nothing. -/
def twoWallets : WalletProcess where
  wallets := fun i => Wallet.new (UInt32.ofNat (i + 1)) fun _ _ => (equalBytes 1, equalBytes 1)

theorem twoWallets_reachable :
    Reachable ProcessInit CreateStep twoWallets :=
  .start ⟨_, rfl⟩

end TwoTransactions

/-- Each of two wallets creates a transaction, and all numbers differ. -/
theorem two_transactions_unique_ids :
    letI := referencePlatform
    ∃ s, Reachable ProcessInit CreateStep s ∧ s.created.length = 2 ∧
      UniqueIds (Validator.firstCoins { walletsIds := [1, 2] } 10) s.created := by
  let _ := referencePlatform
  obtain ⟨s₁, hs₁, hone⟩ := exists_next_created twoWallets_reachable 0
  obtain ⟨s, hs, htwo⟩ := exists_next_created hs₁ 1
  have hlength : s.created.length = 2 := htwo.trans (by rw [hone]; rfl)
  refine ⟨s, hs, hlength, ?_⟩
  exact (transaction_ids_unique_iff _ 10 s hs (by rw [hlength]; decide)).mpr (Or.inl (by decide))

/-- With 101 wallet ids the first transaction has the number of a coin. -/
theorem hundred_and_one_wallets_collide :
    letI := referencePlatform
    ∃ s, Reachable ProcessInit CreateStep s ∧ s.created.length = 1 ∧
      ¬ UniqueIds (Validator.firstCoins { walletsIds := numbersFrom 0 101 } 10) s.created := by
  let _ := referencePlatform
  obtain ⟨s, hs, hone⟩ := exists_next_created twoWallets_reachable 0
  refine ⟨s, hs, hone, not_uniqueIds_of_many (numbered_of_reachable hs) (by decide) ?_⟩
  intro hnil
  rw [hnil] at hone
  cases hone

end CosiCoin
