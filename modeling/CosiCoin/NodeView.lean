import CosiCoin.ValidatorLedger

/-!
# COSICOIN: the coins a node verifies blocks against

A node keeps one flat list of unspent outputs, the lists of all wallets one
after the other.  The order of the wallets is that of an unordered map, so any
order is allowed here (`UtxoMap.Concatenation`).

A coin that a wallet's list finds for an input is the coin the flat list finds,
when outpoints are distinct; a coin that the flat list finds is the first one
its receiver's list finds, in any case.
-/

namespace CosiCoin

namespace UtxoMap

/-- The lists of all wallets one after the other, in some order. -/
def Concatenation (m : UtxoMap) (l : UTXOlist) : Prop :=
  ∃ entries : List (Sigma fun _ : UInt32 => UTXOlist),
    entries.Perm m.entries ∧ l = entries.flatMap fun e => e.2

theorem concatenation_all
    (m : UtxoMap) :
    Concatenation m (all m) :=
  ⟨m.entries, List.Perm.refl _, rfl⟩

/-- The list of a wallet is an entry of the map, or empty. -/
theorem get_eq_of_mem
    {m : UtxoMap} {w : UInt32} {l : UTXOlist}
    (h : ⟨w, l⟩ ∈ m.entries) :
    UtxoMap.get m w = l := by
  have hlookup : m.lookup w = some l := AList.mem_lookup_iff.mpr h
  simp [get, hlookup]

theorem mem_entries_of_mem_get
    {m : UtxoMap} {w : UInt32} {u : UTXO}
    (h : u ∈ UtxoMap.get m w) :
    ⟨w, UtxoMap.get m w⟩ ∈ m.entries := by
  cases hlookup : m.lookup w with
  | none =>
      simp [get, hlookup] at h
  | some l =>
      have hget : UtxoMap.get m w = l := by simp [get, hlookup]
      rw [hget]
      exact AList.mem_lookup_iff.mp hlookup

/-- The flat list holds the coins of the wallets. -/
theorem Concatenation.mem_iff
    {m : UtxoMap} {l : UTXOlist}
    (h : Concatenation m l)
    {u : UTXO} :
    u ∈ l ↔ ∃ w, u ∈ UtxoMap.get m w := by
  obtain ⟨entries, hperm, rfl⟩ := h
  rw [List.mem_flatMap]
  constructor
  · rintro ⟨⟨w, lw⟩, he, hu⟩
    exact ⟨w, by rwa [get_eq_of_mem (hperm.mem_iff.mp he)]⟩
  · rintro ⟨w, hu⟩
    exact ⟨⟨w, UtxoMap.get m w⟩, hperm.mem_iff.mpr (mem_entries_of_mem_get hu), hu⟩

/-- The flat list finds the coin a wallet's list finds. -/
theorem Concatenation.find_eq_of_distinct
    {m : UtxoMap} {l : UTXOlist}
    (h : Concatenation m l)
    (hm : DistinctOutpoints m)
    {w : UInt32} {i : Input}
    (hi : i ∈ (UtxoMap.get m w).outpoints) :
    UTXOlist.find l i = UTXOlist.find (UtxoMap.get m w) i := by
  obtain ⟨u, hu⟩ := Option.isSome_iff_exists.mp ((UTXOlist.find_isSome_iff _ i).mpr hi)
  have hmem : u ∈ UtxoMap.get m w := List.mem_of_find?_eq_some hu
  have hout : u.outpoint = i := by simpa using List.find?_some hu
  have hin : i ∈ UTXOlist.outpoints l :=
    List.mem_map.mpr ⟨u, h.mem_iff.mpr ⟨w, hmem⟩, hout⟩
  obtain ⟨u', hu'⟩ := Option.isSome_iff_exists.mp ((UTXOlist.find_isSome_iff l i).mpr hin)
  have hout' : u'.outpoint = i := by simpa using List.find?_some hu'
  obtain ⟨w', hmem'⟩ := h.mem_iff.mp (List.mem_of_find?_eq_some hu')
  have hw : w' = w :=
    hm.2 w' w i (List.mem_map.mpr ⟨u', hmem', hout'⟩) (List.mem_map.mpr ⟨u, hmem, hout⟩)
  subst hw
  have hsame : u' = u :=
    List.inj_on_of_nodup_map (hm.1 w') hmem' hmem (hout'.trans hout.symm)
  rw [hu, hu', hsame]

/-- The coin the flat list finds is the first one its receiver's list finds. -/
theorem Concatenation.find_receiver
    {m : UtxoMap} {l : UTXOlist}
    (h : Concatenation m l)
    (hm : UnderReceiver m)
    {i : Input} {u : UTXO}
    (hu : UTXOlist.find l i = some u) :
    UTXOlist.find (UtxoMap.get m u.output.receiverID) i = some u := by
  obtain ⟨entries, hperm, rfl⟩ := h
  rw [UTXOlist.find, List.find?_flatMap, List.findSome?_eq_some_iff] at hu
  obtain ⟨before, ⟨w, lw⟩, after, hsplit, hfind, _⟩ := hu
  have hentry : ⟨w, lw⟩ ∈ m.entries := by
    rw [← hperm.mem_iff, hsplit]
    simp
  have hget : UtxoMap.get m w = lw := get_eq_of_mem hentry
  have hreceiver : u.output.receiverID = w := by
    apply hm w
    rw [hget]
    exact List.mem_of_find?_eq_some hfind
  rw [hreceiver, hget]
  exact hfind

end UtxoMap

namespace Transaction

/-- The total only depends on the coins found for the inputs. -/
theorem totalInputValue_congr
    {l l' : UTXOlist} {inputs : List Input}
    (h : ∀ i ∈ inputs, l.find i = l'.find i) :
    ∀ total, totalInputValue l inputs total = totalInputValue l' inputs total := by
  induction inputs with
  | nil =>
      intro total
      rfl
  | cons i inputs ih =>
      intro total
      unfold totalInputValue
      rw [h i List.mem_cons_self]
      cases l'.find i with
      | none =>
          rfl
      | some u =>
          exact ih (fun j hj => h j (List.mem_cons_of_mem _ hj)) _

/-- The spending conditions only depend on the coins found for the inputs. -/
theorem checkSpendingConditions_congr
    {t : Transaction} {l l' : UTXOlist}
    (h : ∀ i ∈ t.inputs, l.find i = l'.find i)
    (walletIds : List UInt32) :
    t.checkSpendingConditions l walletIds = t.checkSpendingConditions l' walletIds := by
  unfold checkSpendingConditions
  rw [totalInputValue_congr h]

end Transaction

end CosiCoin
