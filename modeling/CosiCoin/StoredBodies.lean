import CosiCoin.AcceptedKeys

/-!
# COSICOIN: what a node stores while its blocks are taken

`getConsensusBlocks` reads `blocks_[hash]` for the keys of `accepted_blocks_`, which
inserts a default block for an unknown key.  So in general a stored block has the
body of a counted message or none (`StoresCounted`); a node that always reads the
erased keys as they were never looks an unknown one up and holds the block it
counted first under every hash (`KeptFirst`).
-/

namespace CosiCoin

open CausalLog Node

section Stored

variable [Platform]

/-- A stored block has the body of a counted message, which is stored, or of a default block. -/
structure StoresCounted (nd : Node) (hist : List NodeEvent) : Prop where
  known : ∀ m, .counted m ∈ hist → (nd.blocks.lookup m.block.header.getID).isSome = true
  stored : ∀ h b, nd.blocks.lookup h = some b →
    b.body = ({} : Block).body ∨ ∃ m, .counted m ∈ hist ∧ b.body = m.block.body

variable {nd nd' : Node} {hist : List NodeEvent}

/-- A change that stores nothing and counts nothing. -/
theorem StoresCounted.append
    {ev : List NodeEvent}
    (h : StoresCounted nd hist)
    (hblocks : nd'.blocks = nd.blocks)
    (hev : ∀ m, .counted m ∉ ev) :
    StoresCounted nd' (ev ++ hist) := by
  have hold : ∀ m, .counted m ∈ ev ++ hist ↔ .counted m ∈ hist := by
    intro m
    simp [hev m]
  constructor
  · intro m hm
    rw [hblocks]
    exact h.known m ((hold m).mp hm)
  · intro k b hb
    rw [hblocks] at hb
    rcases h.stored k b hb with hdefault | ⟨m, hm, hbody⟩
    · exact Or.inl hdefault
    · exact Or.inr ⟨m, (hold m).mpr hm, hbody⟩

theorem StoresCounted.count
    (h : StoresCounted nd hist)
    (m : Message) :
    StoresCounted (nd.countMessage m) (.counted m :: hist) := by
  constructor
  · intro m' hm'
    rw [← Option.isSome_map (f := Block.body), countMessage_blocks]
    split_ifs with hhash
    · rfl
    · rcases List.mem_cons.mp hm' with heq | hm'
      · obtain rfl := NodeEvent.counted.inj heq
        exact absurd rfl hhash
      · rw [Option.isSome_map]
        exact h.known m' hm'
  · intro k b hb
    have hcases : (nd.blocks.lookup k).map Block.body = some b.body ∨ b.body = m.block.body := by
      have hmap := countMessage_blocks nd m k
      rw [hb, Option.map_some] at hmap
      split_ifs at hmap with hhash
      · cases hlookup : (nd.blocks.lookup k).map Block.body with
        | none =>
            rw [hlookup] at hmap
            exact Or.inr (Option.some.inj hmap)
        | some body =>
            rw [hlookup] at hmap
            exact Or.inl hmap.symm
      · exact Or.inl hmap.symm
    rcases hcases with hold | hnew
    · obtain ⟨b₀, hb₀, hbody⟩ := Option.map_eq_some_iff.mp hold
      rw [← hbody]
      rcases h.stored k b₀ hb₀ with hdefault | ⟨m', hm', hbody'⟩
      · exact Or.inl hdefault
      · exact Or.inr ⟨m', List.mem_cons_of_mem _ hm', hbody'⟩
    · exact Or.inr ⟨m, List.mem_cons_self, hnew⟩

theorem StoresCounted.step
    {ev : List NodeEvent}
    (h : StoresCounted nd hist)
    (hstep : NodeStep nd ev nd') :
    StoresCounted nd' (ev.reverse ++ hist) := by
  cases hstep with
  | quiet hq hkept => exact h.append hkept.blocks (by simp)
  | count m => exact h.count m
  | echo m hsend hm => exact h.append rfl (by simp)
  | ready m k round hvotes hsent hm => exact h.append rfl (by simp)
  | deliver k hvotes => exact h.append rfl (by simp)
  | restart => exact h.append rfl (by simp)

/-- What is read for a key: the block stored under it, or the default block. -/
theorem StoresCounted.read
    (h : StoresCounted nd hist)
    (k : Str) :
    ((nd.blocks.lookup k).getD {}).body = ({} : Block).body ∨
      ∃ m, .counted m ∈ hist ∧ ((nd.blocks.lookup k).getD {}).body = m.block.body := by
  cases hlookup : nd.blocks.lookup k with
  | none => exact Or.inl rfl
  | some b => exact h.stored k b hlookup

theorem StoresCounted.taken
    {erase : Bool} {b : Block}
    (h : StoresCounted nd hist)
    (hb : b ∈ (nd.getConsensusBlocks erase).1) :
    b.body = ({} : Block).body ∨ ∃ m, .counted m ∈ hist ∧ b.body = m.block.body := by
  rw [getConsensusBlocks_fst] at hb
  obtain ⟨k, _, rfl⟩ := List.mem_map.mp hb
  exact h.read k

/-- The default blocks that are inserted are allowed for. -/
theorem StoresCounted.take
    (h : StoresCounted nd hist)
    (erase : Bool) :
    StoresCounted (nd.getConsensusBlocks erase).2 hist := by
  constructor
  · intro m hm
    rw [getConsensusBlocks_lookup]
    split_ifs
    · rfl
    · exact h.known m hm
  · intro k b hb
    rw [getConsensusBlocks_lookup] at hb
    split_ifs at hb
    · rw [← Option.some.inj hb]
      exact h.read k
    · exact h.stored k b hb

end Stored

section Kept

variable [Platform]

/-- A node that reads the erased keys as they were holds what it counted first. -/
def KeptFirst (nd : Node) (hist : List NodeEvent) : Prop :=
  nd.erasedRead = keptRead → HoldsFirst nd hist

theorem KeptFirst.step
    {nd nd' : Node} {hist ev : List NodeEvent}
    (h : KeptFirst nd hist)
    (hstep : NodeStep nd ev nd') :
    KeptFirst nd' (ev.reverse ++ hist) := by
  intro hread
  rw [hstep.appends.erasedRead] at hread
  exact (h hread).step hstep

/-- It never looks an unknown key up. -/
theorem KeptFirst.take
    {nd : Node} {hist : List NodeEvent}
    (h : KeptFirst nd hist)
    (erase : Bool)
    (hknown : nd.erasedRead = keptRead →
      ∀ k ∈ nd.acceptedBlocks, (nd.blocks.lookup k).isSome = true) :
    KeptFirst (nd.getConsensusBlocks erase).2 hist := by
  intro hread
  have hkept : nd.erasedRead = keptRead := by
    rwa [(getConsensusBlocks_quiet nd erase).erasedRead] at hread
  intro k
  rw [getConsensusBlocks_known (hknown hkept)]
  exact h hkept k

end Kept

end CosiCoin
