import CosiCoin.KeyChain

/-!
# COSICOIN: what a round leaves alone

`broadcastRound` sends messages and may accept a hash.  The blocks, the lists the
blocks are verified against, the verified hashes and the keys of the others stay
as they are, and the counters can only lose entries (`broadcastRound_framed`).

After the `ECHO` for the `SEND` of the batch a round broadcasts nothing but
`READY` messages (`broadcastRound_echo`).  A round throws for no node that keeps
a finalized block for every hash it may have to sign (`exists_broadcastRound`).
-/

namespace CosiCoin

open Node

section Frames

/-- All the messages among the events are `READY`. -/
def OnlyReady (evs : List NodeEvent) : Prop :=
  ∀ m, .broadcast m ∈ evs → m.type = .ready

theorem OnlyReady.append
    {ev evs : List NodeEvent}
    (h : OnlyReady ev)
    (h' : OnlyReady evs) :
    OnlyReady (ev ++ evs) := by
  intro m hm
  rcases List.mem_append.mp hm with hm | hm
  · exact h m hm
  · exact h' m hm

variable [P : Platform]

/-- The node has sent messages and accepted hashes, and nothing else. -/
structure Node.Framed (nd nd' : Node) : Prop where
  id : nd'.id = nd.id
  n : nd'.n = nd.n
  f : nd'.f = nd.f
  blkList : nd'.blkList = nd.blkList
  utxolist : nd'.utxolist = nd.utxolist
  walletIds : nd'.walletIds = nd.walletIds
  valSigKeys : nd'.valSigKeys = nd.valSigKeys
  verifiedBlocks : nd'.verifiedBlocks = nd.verifiedBlocks
  key : nd.myNextKeyPair.WellFormed → nd'.myNextKeyPair.WellFormed
  send : nd'.sendThisRound = nd.sendThisRound ∨ nd'.sendThisRound = []
  echo : ∀ h ∈ nd'.echoThisRound, h ∈ nd.echoThisRound
  ready : ∀ h ∈ nd'.readyThisRound, h ∈ nd.readyThisRound

theorem Node.Framed.refl
    (nd : Node) :
    nd.Framed nd :=
  ⟨rfl, rfl, rfl, rfl, rfl, rfl, rfl, rfl, fun h => h, Or.inl rfl, fun _ h => h, fun _ h => h⟩

theorem Node.Framed.trans
    {nd nd₁ nd₂ : Node}
    (h : nd.Framed nd₁)
    (h' : nd₁.Framed nd₂) :
    nd.Framed nd₂ where
  id := h'.id.trans h.id
  n := h'.n.trans h.n
  f := h'.f.trans h.f
  blkList := h'.blkList.trans h.blkList
  utxolist := h'.utxolist.trans h.utxolist
  walletIds := h'.walletIds.trans h.walletIds
  valSigKeys := h'.valSigKeys.trans h.valSigKeys
  verifiedBlocks := h'.verifiedBlocks.trans h.verifiedBlocks
  key := fun hkey => h'.key (h.key hkey)
  send := by
    rcases h'.send with hsend | hsend
    · rw [hsend]
      exact h.send
    · exact Or.inr hsend
  echo := fun k hk => h.echo k (h'.echo k hk)
  ready := fun k hk => h.ready k (h'.ready k hk)

theorem framed_of_rehashed
    {nd nd' : Node}
    (h : nd.Rehashed nd') :
    nd.Framed nd' := by
  obtain ⟨echo, ready, hecho, hready, rfl⟩ := h
  refine ⟨rfl, rfl, rfl, rfl, rfl, rfl, rfl, rfl, fun h => h, Or.inl rfl, ?_, ?_⟩
  · exact fun k hk => (AList.mem_of_perm hecho).mp hk
  · exact fun k hk => (AList.mem_of_perm hready).mp hk

theorem framed_deliver
    (nd : Node) (h recorded : Str) :
    nd.Framed (nd.deliver h recorded) := by
  refine ⟨rfl, rfl, rfl, rfl, rfl, rfl, rfl, rfl, fun h => h, Or.inl rfl, ?_, ?_⟩
  · exact fun k hk => (AList.mem_erase.mp hk).2
  · exact fun k hk => (AList.mem_erase.mp hk).2

theorem announceReady_framed
    {nd nd' : Node} {threshold nbRecv : Nat} {h : Str} {round : UInt32} {evs : List NodeEvent}
    (hok : nd.announceReady threshold nbRecv h round = .ok (nd', evs)) :
    nd.Framed nd' ∧ OnlyReady evs := by
  rcases announceReady_cases hok with ⟨_, rfl, rfl⟩ | ⟨_, _, rfl, m, hm, rfl⟩
  · exact ⟨.refl nd', by simp [OnlyReady]⟩
  · refine ⟨⟨rfl, rfl, rfl, rfl, rfl, rfl, rfl, rfl, fun _ => keyGen_wellFormed _, Or.inl rfl,
      fun _ h => h, fun _ h => h⟩, ?_⟩
    intro m' hm'
    obtain rfl := NodeEvent.broadcast.inj (List.mem_singleton.mp hm')
    exact (Signs.type_eq hm).1

theorem echoLoop_framed
    {entries : List ((_ : Str) × Nat)} :
    ∀ {nd nd' : Node} {evs : List NodeEvent}, echoLoop entries nd = .ok (nd', evs) →
      nd.Framed nd' ∧ OnlyReady evs := by
  induction entries with
  | nil =>
      intro nd nd' evs h
      obtain ⟨rfl, rfl⟩ := Prod.mk.inj (Except.ok.inj h)
      exact ⟨.refl nd, by simp [OnlyReady]⟩
  | cons e entries ih =>
      obtain ⟨h, nbRecv⟩ := e
      intro nd nd' evs hok
      obtain ⟨⟨nd₁, ev₁⟩, hone, hok⟩ := bind_eq_ok hok
      obtain ⟨⟨nd₂, ev₂⟩, hloop, hok⟩ := bind_eq_ok hok
      obtain ⟨rfl, rfl⟩ := Prod.mk.inj (Except.ok.inj hok)
      obtain ⟨hframe, hready⟩ := announceReady_framed hone
      obtain ⟨hframe', hready'⟩ := ih hloop
      exact ⟨hframe.trans hframe', hready.append hready'⟩

theorem readyLoop_framed
    {entries : List ((_ : Str) × Nat)} :
    ∀ {nd nd' : Node} {evs : List NodeEvent}, readyLoop entries nd = .ok (nd', evs) →
      nd.Framed nd' ∧ OnlyReady evs := by
  induction entries with
  | nil =>
      intro nd nd' evs h
      obtain ⟨rfl, rfl⟩ := Prod.mk.inj (Except.ok.inj h)
      exact ⟨.refl nd, by simp [OnlyReady]⟩
  | cons e entries ih =>
      obtain ⟨h, nbRecv⟩ := e
      intro nd nd' evs hok
      obtain ⟨⟨nd₁, ev₁⟩, hone, hok⟩ := bind_eq_ok hok
      obtain ⟨hframe, hready⟩ := announceReady_framed hone
      dsimp only at hok
      split_ifs at hok
      · obtain ⟨rfl, rfl⟩ := Prod.mk.inj (Except.ok.inj hok)
        exact ⟨hframe.trans (framed_deliver nd₁ h _), hready.append (by simp [OnlyReady])⟩
      · obtain ⟨⟨nd₂, ev₂⟩, hloop, hok⟩ := bind_eq_ok hok
        obtain ⟨rfl, rfl⟩ := Prod.mk.inj (Except.ok.inj hok)
        obtain ⟨hframe', hready'⟩ := ih hloop
        exact ⟨hframe.trans hframe', hready.append hready'⟩

theorem sendEcho_framed
    {nd nd' : Node} {evs : List NodeEvent}
    (h : nd.sendEcho = .ok (nd', evs)) :
    nd.Framed nd' ∧ nd'.sendThisRound = [] := by
  rcases sendEcho_cases h with ⟨hsend, rfl, _⟩ | ⟨_, rfl, _⟩
  · exact ⟨.refl nd', hsend⟩
  · exact ⟨⟨rfl, rfl, rfl, rfl, rfl, rfl, rfl, rfl, fun _ => keyGen_wellFormed _, Or.inr rfl,
      fun _ h => h, fun _ h => h⟩, rfl⟩

/-- A round is the `ECHO`, if there is a `SEND`, and then only `READY` messages. -/
theorem broadcastRound_echo
    {nd nd' : Node} {evs : List NodeEvent}
    (h : nd.broadcastRound = .ok (nd', evs)) :
    ∃ nd₁ ev₁ ev₂, sendEcho { nd with shouldBroadcast := true } = .ok (nd₁, ev₁) ∧
      nd₁.Framed nd' ∧ OnlyReady ev₂ ∧ evs = ev₁ ++ ev₂ := by
  obtain ⟨⟨nd₁, ev₁⟩, hecho, h⟩ := bind_eq_ok h
  obtain ⟨⟨nd₂, ev₂⟩, hloop₁, h⟩ := bind_eq_ok h
  obtain ⟨⟨nd₃, ev₃⟩, hloop₂, h⟩ := bind_eq_ok h
  obtain ⟨rfl, rfl⟩ := Prod.mk.inj (Except.ok.inj h)
  obtain ⟨hframe₁, hready₁⟩ := echoLoop_framed hloop₁
  obtain ⟨hframe₂, hready₂⟩ := readyLoop_framed hloop₂
  exact ⟨nd₁, ev₁, ev₂ ++ ev₃, hecho, hframe₁.trans hframe₂, hready₁.append hready₂,
    List.append_assoc _ _ _⟩

theorem broadcastRound_framed
    {nd nd' : Node} {evs : List NodeEvent}
    (h : nd.broadcastRound = .ok (nd', evs)) :
    nd.Framed nd' := by
  obtain ⟨nd₁, ev₁, ev₂, hecho, hframe, _⟩ := broadcastRound_echo h
  have hstart : nd.Framed { nd with shouldBroadcast := true } :=
    ⟨rfl, rfl, rfl, rfl, rfl, rfl, rfl, rfl, fun h => h, Or.inl rfl, fun _ h => h, fun _ h => h⟩
  exact (hstart.trans (sendEcho_framed hecho).1).trans hframe

end Frames

section Completion

variable [P : Platform]

/-- The node keeps a finalized block for every hash it may have to sign. -/
structure Node.Supplied (nd : Node) : Prop where
  key : nd.myNextKeyPair.WellFormed
  frozen : ∀ h b, nd.blkList.lookup h = some b → b.isMutable = false
  send : nd.sendThisRound ≠ [] → nd.sendThisRound ∈ nd.blkList
  echo : ∀ h ∈ nd.echoThisRound, h ∈ nd.blkList
  ready : ∀ h ∈ nd.readyThisRound, h ∈ nd.blkList

theorem Node.Supplied.framed
    {nd nd' : Node}
    (h : nd.Supplied)
    (hframe : nd.Framed nd') :
    nd'.Supplied where
  key := hframe.key h.key
  frozen k b hb := by
    rw [hframe.blkList] at hb
    exact h.frozen k b hb
  send hne := by
    rw [hframe.blkList]
    rcases hframe.send with hsend | hsend
    · rw [hsend] at hne ⊢
      exact h.send hne
    · exact absurd hsend hne
  echo k hk := by
    rw [hframe.blkList]
    exact h.echo k (hframe.echo k hk)
  ready k hk := by
    rw [hframe.blkList]
    exact h.ready k (hframe.ready k hk)

theorem Node.Supplied.lookup
    {nd : Node} {k : Str}
    (h : nd.Supplied)
    (hk : k ∈ nd.blkList) :
    Block.isMutable ((nd.blkList.lookup k).getD {}) = false := by
  obtain ⟨b, hb⟩ := Option.isSome_iff_exists.mp (AList.lookup_isSome.mpr hk)
  rw [hb]
  exact h.frozen k b hb

variable [LawfulPlatform P]

theorem exists_announceReady
    {nd : Node} {k : Str}
    (h : nd.Supplied)
    (hk : k ∈ nd.blkList)
    (threshold nbRecv : Nat) (round : UInt32) :
    ∃ nd' evs, nd.announceReady threshold nbRecv k round = .ok (nd', evs) := by
  obtain ⟨m, hm⟩ := exists_broadcastMessage h.key (h.lookup hk) .ready round
  unfold announceReady sendReady
  rw [hm]
  split_ifs
  · exact ⟨_, _, rfl⟩
  · exact ⟨_, _, rfl⟩

theorem exists_sendEcho
    {nd : Node}
    (h : nd.Supplied) :
    ∃ nd' evs, nd.sendEcho = .ok (nd', evs) := by
  unfold sendEcho
  split_ifs with hsend
  · obtain ⟨m, hm⟩ := exists_broadcastMessage h.key (h.lookup (h.send hsend)) .echo 1
    rw [hm]
    exact ⟨_, _, rfl⟩
  · exact ⟨_, _, rfl⟩

theorem exists_echoLoop
    {entries : List ((_ : Str) × Nat)} :
    ∀ {nd : Node}, nd.Supplied → (∀ e ∈ entries, e.1 ∈ nd.blkList) →
      ∃ nd' evs, echoLoop entries nd = .ok (nd', evs) := by
  induction entries with
  | nil =>
      intro nd _ _
      exact ⟨nd, [], rfl⟩
  | cons e entries ih =>
      obtain ⟨k, nbRecv⟩ := e
      intro nd h hentries
      have hk : k ∈ nd.blkList := hentries ⟨k, nbRecv⟩ List.mem_cons_self
      obtain ⟨nd₁, ev₁, hone⟩ := exists_announceReady h hk ((nd.n + nd.f + 1) / 2) nbRecv 2
      have hframe := (announceReady_framed hone).1
      have hrest : ∀ e ∈ entries, e.1 ∈ nd₁.blkList := by
        intro e he
        rw [hframe.blkList]
        exact hentries e (List.mem_cons_of_mem _ he)
      obtain ⟨nd₂, ev₂, hloop⟩ := ih (h.framed hframe) hrest
      refine ⟨nd₂, ev₁ ++ ev₂, ?_⟩
      simp [Node.echoLoop, hone, hloop, bind, Except.bind, pure, Except.pure]

theorem exists_readyLoop
    {entries : List ((_ : Str) × Nat)} :
    ∀ {nd : Node}, nd.Supplied → (∀ e ∈ entries, e.1 ∈ nd.blkList) →
      ∃ nd' evs, readyLoop entries nd = .ok (nd', evs) := by
  induction entries with
  | nil =>
      intro nd _ _
      exact ⟨nd, [], rfl⟩
  | cons e entries ih =>
      obtain ⟨k, nbRecv⟩ := e
      intro nd h hentries
      have hk : k ∈ nd.blkList := hentries ⟨k, nbRecv⟩ List.mem_cons_self
      obtain ⟨nd₁, ev₁, hone⟩ := exists_announceReady h hk (nd.f + 1) nbRecv 3
      have hframe := (announceReady_framed hone).1
      have hrest : ∀ e ∈ entries, e.1 ∈ nd₁.blkList := by
        intro e he
        rw [hframe.blkList]
        exact hentries e (List.mem_cons_of_mem _ he)
      by_cases hvotes : 2 * nd₁.f + 1 < nbRecv
      · refine ⟨nd₁.deliver k (nd₁.erasedRead nd₁.erasedReads k), ev₁ ++ [.delivered k], ?_⟩
        simp [Node.readyLoop, hone, hvotes, bind, Except.bind, pure, Except.pure]
      · obtain ⟨nd₂, ev₂, hloop⟩ := ih (h.framed hframe) hrest
        refine ⟨nd₂, ev₁ ++ ev₂, ?_⟩
        simp [Node.readyLoop, hone, hvotes, hloop, bind, Except.bind, pure, Except.pure]

/-- A supplied node completes its round. -/
theorem exists_broadcastRound
    {nd : Node}
    (h : nd.Supplied) :
    ∃ nd' evs, nd.broadcastRound = .ok (nd', evs) := by
  have hmem : ∀ {c : Counter} {e : (_ : Str) × Nat}, e ∈ c.entries → e.1 ∈ c := by
    intro c e he
    exact AList.mem_keys.mpr (List.mem_map_of_mem he)
  have h₀ : Node.Supplied { nd with shouldBroadcast := true } :=
    { h with }
  obtain ⟨nd₁, ev₁, hecho⟩ := exists_sendEcho h₀
  have h₁ := h₀.framed (sendEcho_framed hecho).1
  obtain ⟨nd₂, ev₂, hloop₁⟩ := exists_echoLoop h₁ fun e he => h₁.echo _ (hmem he)
  have h₂ := h₁.framed (echoLoop_framed hloop₁).1
  obtain ⟨nd₃, ev₃, hloop₂⟩ := exists_readyLoop h₂ fun e he => h₂.ready _ (hmem he)
  refine ⟨nd₃, ev₁ ++ ev₂ ++ ev₃, ?_⟩
  simp [Node.broadcastRound, hecho, hloop₁, hloop₂, bind, Except.bind, pure, Except.pure]

end Completion

end CosiCoin
