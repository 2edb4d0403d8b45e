import CosiCoin.BlockDatabase
import CosiCoin.BrachaAgreement
import CosiCoin.DigestPreimages
import CosiCoin.NodeLifetime

/-!
# COSICOIN: the names of agreed blocks

The protocol identifies a block by the hash of its header, but `addBlock` stores
it under `getDigest`, which also covers the validator that signed the copy and the
key that validator announced.  A node keeps the copy of the message it counted
first, so two nodes that have accepted the same block name it alike only if they
happen to hold copies with the same signer and the same key, and never if the
copies come from different validators (`named_alike_iff`).
-/

namespace CosiCoin

open LabelledRuns CausalLog Node JsonText

section KeptCopies

variable [Platform]

/-- A block without the signatures collected from others. -/
def Block.unsigned (b : Block) : Block :=
  { b with validatorSigs := [] }

/-- The block kept under a hash is that of the message counted first. -/
def KeepsFirst (nd : Node) (hist : List NodeEvent) : Prop :=
  ∀ h, (nd.blocks.lookup h).map Block.unsigned =
    (firstCounted h hist).map fun m => m.block.unsigned

theorem KeepsFirst.count
    {nd : Node} {hist : List NodeEvent}
    (h : KeepsFirst nd hist)
    (m : Message) :
    KeepsFirst (nd.countMessage m) (.counted m :: hist) := by
  intro k
  have hblocks : ((nd.countMessage m).blocks.lookup k).map Block.unsigned =
      if m.block.header.getID = k then
        some (((nd.blocks.lookup k).map Block.unsigned).getD m.block.unsigned)
      else (nd.blocks.lookup k).map Block.unsigned := by
    rw [countMessage_eq]
    refine lookup_insert_map ?_ k
    rfl
  rw [hblocks, firstCounted_cons_counted, h k]
  split_ifs
  · cases firstCounted k hist with
    | none => rfl
    | some m' => rfl
  · rfl

theorem KeepsFirst.cons
    {nd nd' : Node} {hist : List NodeEvent} {e : NodeEvent}
    (h : KeepsFirst nd hist)
    (hblocks : nd'.blocks = nd.blocks)
    (he : ∀ m, e ≠ .counted m) :
    KeepsFirst nd' (e :: hist) := by
  intro k
  rw [hblocks, firstCounted_cons_of_ne he]
  exact h k

theorem KeepsFirst.step
    {nd nd' : Node} {hist ev : List NodeEvent}
    (h : KeepsFirst nd hist)
    (hstep : NodeStep nd ev nd') :
    KeepsFirst nd' (ev.reverse ++ hist) := by
  cases hstep with
  | quiet hq hkept =>
      intro k
      rw [hkept.blocks]
      exact h k
  | count m => exact h.count m
  | echo m hsend hm => exact h.cons rfl (by simp)
  | ready m k round hvotes hsent hm => exact h.cons rfl (by simp)
  | deliver k hvotes => exact h.cons rfl (by simp)
  | restart => exact h.cons rfl (by simp)

/-- An invariant of a node and its history holds of every correct node of a system. -/
theorem nodes_invariant
    {c : Committee} {Q : Node → List NodeEvent → Prop}
    (hnew : ∀ i isLead urandom erasedRead utxolist walletIds,
      Q (Node.setUTXOlists (Node.new i c.n c.f isLead urandom erasedRead) utxolist walletIds) [])
    (hstep : ∀ nd ev nd' hist, Q nd hist → NodeStep nd ev nd' → Q nd' (ev.reverse ++ hist))
    (hpropose : ∀ nd b m hist, Q nd hist → nd.Signs .send b 0 m →
      Q nd.rotateKeys (.broadcast m :: .proposed b :: hist))
    {s : SystemState}
    (h : SystemReachable c s) :
    ∀ i, c.Correct i → Q (s.nodes i) (history i s.log) := by
  unfold SystemReachable at h
  induction h with
  | start h =>
      obtain ⟨urandom, erasedRead, utxolist, walletIds, rfl⟩ := h
      intro i _
      exact hnew i _ _ _ _ _
  | next run h ih =>
      exact nodes_step hstep hpropose ih h

theorem keepsFirst_of_reachable
    {c : Committee} {s : SystemState}
    (hs : SystemReachable c s)
    {i : UInt16}
    (hi : c.Correct i) :
    KeepsFirst (s.nodes i) (history i s.log) := by
  refine nodes_invariant ?_ ?_ ?_ hs i hi
  · intro i isLead urandom erasedRead utxolist walletIds h
    rfl
  · intro nd ev nd' hist h hstep
    exact h.step hstep
  · intro nd b m hist h _
    have hfirst : KeepsFirst nd.rotateKeys (.proposed b :: hist) := h.cons rfl (by simp)
    exact hfirst.cons rfl (by simp)

/-- A message that arrives carries a whole key. -/
theorem fullLength_of_available
    {c : Committee} {log : Log} {m : Message}
    (h : Available c log m) :
    m.block.validatorNextPublicKey.FullLength := by
  have hdecoded : ∃ p, Message.fromProtoMessage p = .ok m := by
    rcases h with ⟨_, m₀, _, hwire⟩ | ⟨_, hp⟩
    · obtain ⟨p, _, hp⟩ := bind_eq_ok hwire
      exact ⟨p, hp⟩
    · exact hp
  obtain ⟨p, hp⟩ := hdecoded
  obtain ⟨b, hb, hp⟩ := bind_eq_ok hp
  obtain rfl := Except.ok.inj hp
  exact fullLength_of_sigKeyFromString (fromProtoBlock_eq_ok hb).2.2.2.2.2.2.2

/-- What a correct node keeps under a hash. -/
theorem kept_copy
    {c : Committee} {s : SystemState}
    (hs : SystemReachable c s)
    {i : UInt16} {h : Str} {b : Block}
    (hi : c.Correct i)
    (hb : (s.nodes i).blocks.lookup h = some b) :
    b.header.getID = h ∧ b.validatorNextPublicKey.FullLength := by
  have hkeeps := keepsFirst_of_reachable hs hi h
  rw [hb, Option.map_some] at hkeeps
  obtain ⟨m, hfirst, heq⟩ := Option.map_eq_some_iff.mp hkeeps.symm
  obtain ⟨hcounted, hhash⟩ := firstCounted_spec hfirst
  obtain ⟨_, _, _, _, havail⟩ :=
    (systemInv_of_reachable hs).causal.exists_of_mem (mem_history.mp hcounted)
  have hheader := congrArg Block.header heq
  have hkey := congrArg Block.validatorNextPublicKey heq
  dsimp only [Block.unsigned] at hheader hkey
  rw [← hheader, ← hkey]
  exact ⟨hhash, fullLength_of_available havail⟩

end KeptCopies

section ChosenCopies

/-- A copy of a block with the given signer and key. -/
structure CopyBy (b : Block) (signer : UInt16) (key : SigKey) (copy : Block) : Prop where
  block : OfBlock b.header (b.txs.map wireTransaction) copy
  signer : copy.validatorId = signer
  key : copy.validatorNextPublicKey = key

theorem CopyBy.of_unsigned
    {b copy copy' : Block} {signer : UInt16} {key : SigKey}
    (h : CopyBy b signer key copy)
    (heq : copy'.unsigned = copy.unsigned) :
    CopyBy b signer key copy' := by
  have hheader := congrArg Block.header heq
  have htxs := congrArg Block.txs heq
  have hmut := congrArg Block.isMutable heq
  have hsigner := congrArg Block.validatorId heq
  have hkey := congrArg Block.validatorNextPublicKey heq
  exact ⟨⟨hheader.trans h.block.header, htxs.trans h.block.txs, hmut.trans h.block.immutable⟩,
    hsigner.trans h.signer, hkey.trans h.key⟩

variable [P : Platform]

/-- The digest of a copy is the hash of its signer and its key, after the name of the block. -/
theorem CopyBy.getDigest_eq
    {b copy : Block} {signer : UInt16} {key : SigKey} {text : Str}
    (h : CopyBy b signer key copy)
    (htext : sigKeyToString key = .ok text) :
    copy.getDigest = .ok (hash (b.header.getID ++ decimal signer.toNat ++ text)) := by
  have hfull := fullLength_of_sigKeyToString htext
  rw [Block.getDigest, if_neg (by rw [h.block.immutable]; decide), h.key, if_pos hfull.ne_nil,
    htext, h.block.header, h.signer]
  rfl

/-- What a node keeps if it has counted the copy first. -/
theorem kept_of_first
    {c : Committee} {s : SystemState} {i : UInt16} {b : Block} {m : Message} {outs : List NodeEvent}
    {signer : UInt16} {key : SigKey}
    (hs : SystemReachable c s)
    (hi : c.Correct i)
    (hhistory : history i s.log = (.counted m :: outs).reverse)
    (hcopy : CopyBy b signer key m.block) :
    ∃ copy, (s.nodes i).blocks.lookup b.header.getID = some copy ∧ CopyBy b signer key copy := by
  have hfirst : firstCounted b.header.getID (history i s.log) = some m := by
    rw [hhistory, List.reverse_cons]
    refine firstCounted_append ?_ _
    rw [firstCounted_cons_counted, if_pos (by rw [hcopy.block.header])]
    rfl
  have hkeeps := keepsFirst_of_reachable hs hi b.header.getID
  rw [hfirst, Option.map_some] at hkeeps
  obtain ⟨copy, hlookup, heq⟩ := Option.map_eq_some_iff.mp hkeeps
  exact ⟨copy, hlookup, hcopy.of_unsigned heq⟩

variable [LawfulPlatform P]

/-- A validator that has not been heard can announce any key. -/
theorem exists_announcing
    {b : Block} {key : SigKey} {text : Str}
    (hmut : b.isMutable = false)
    (henc : Encodable b.txs)
    (htext : sigKeyToString key = .ok text)
    (v : UInt16) :
    ∃ m p, Message.fromProtoMessage p = .ok m ∧ CopyBy b v key m.block ∧
      ∃ digest, m.block.getDigest = .ok digest := by
  have hsend : Sendable b v
      ⟨.ready, { b with validatorId := v, validatorNextPublicKey := key }, v.toUInt64, 2⟩ :=
    ⟨rfl, rfl, rfl, hmut, henc, ⟨text, htext⟩, nofun⟩
  obtain ⟨m, hwire, _, hblock, hdigest, hsigner, hkey, _⟩ := hsend.wire
  obtain ⟨p, _, hp⟩ := bind_eq_ok hwire
  exact ⟨m, p, hp, ⟨hblock, hsigner, hkey⟩, hdigest⟩

/-- Two faulty validators make a new node accept a block, and one of them chooses the copy. -/
theorem exists_copy_step
    {c : Committee} {s : SystemState} {i v w : UInt16} {b : Block} {key : SigKey} {text : Str}
    (hi : c.Correct i)
    (hv : v ∈ c.byz)
    (hw : w ∈ c.byz)
    (hne : v ≠ w)
    (hmut : b.isMutable = false)
    (henc : Encodable b.txs)
    (htext : sigKeyToString key = .ok text)
    (hnode : InLine c b i (s.nodes i) {})
    (hkeys : (s.nodes i).valSigKeys = ∅) :
    ∃ m msgs nd outs, SystemStep c s (.runTask i msgs) (s.record i nd (.counted m :: outs)) ∧
      Stuffed b nd (.counted m :: outs) ∧ CopyBy b w key m.block := by
  obtain ⟨m, p, hp, hcopy, hdigest⟩ := exists_announcing hmut henc htext w
  have hgood : GoodBatch b.header (b.txs.map wireTransaction) (s.nodes i) [m] := by
    refine ⟨⟨?_, trivial⟩, ?_⟩
    · intro k hk
      rw [hkeys] at hk
      cases hk
    · intro m' hm'
      rw [List.mem_singleton.mp hm']
      exact ⟨hcopy.block, hdigest⟩
  have havail : ∀ m' ∈ [m], Available c s.log m' := by
    intro m' hm'
    rw [List.mem_singleton.mp hm']
    exact Or.inr ⟨hcopy.signer ▸ hw, p, hp⟩
  have hkey : (keysAfter (s.nodes i).valSigKeys [m]).lookup v = none := by
    rw [hkeys, keysAfter, keysAfter, hcopy.signer, AList.lookup_insert_ne hne]
    exact AList.lookup_empty v
  obtain ⟨votes, nd, outs, hstep, hstuffed⟩ :=
    exists_stuffed_after hi hv hmut henc hnode havail hgood hkey
  exact ⟨m, _, nd, outs, hstep, hstuffed, hcopy⟩

/-- Two nodes that have accepted the empty block hold the copies of chosen validators. -/
theorem exists_two_copies
    {c : Committee} {i j : UInt16} {key : SigKey} {text : Str}
    (hi : c.Correct i)
    (hj : c.Correct j)
    (hij : i ≠ j)
    (v w v' w' : UInt16)
    (hv : v ∈ c.byz ∧ w ∈ c.byz ∧ v ≠ w)
    (hv' : v' ∈ c.byz ∧ w' ∈ c.byz ∧ v' ≠ w')
    (htext : sigKeyToString key = .ok text) :
    ∃ s, SystemReachable c s ∧
      (i, .delivered emptyBlock.header.getID) ∈ s.log ∧
      (j, .delivered emptyBlock.header.getID) ∈ s.log ∧
      (∃ copy, (s.nodes i).blocks.lookup emptyBlock.header.getID = some copy ∧
        CopyBy emptyBlock w key copy) ∧
      ∃ copy, (s.nodes j).blocks.lookup emptyBlock.header.getID = some copy ∧
        CopyBy emptyBlock w' key copy := by
  let s₀ := SystemState.initial c (fun _ _ _ => (equalBytes 0, equalBytes 0))
    (fun _ => keptRead) (fun _ => []) (fun _ => [])
  have hs₀ : SystemReachable c s₀ := .start ⟨_, _, _, _, rfl⟩
  obtain ⟨m, _, nd, outs, hstep, hstuffed, hcopy⟩ := exists_copy_step (s := s₀) (b := emptyBlock)
    hi hv.1 hv.2.1 hv.2.2 rfl ⟨[], rfl⟩ htext (inLine_new rfl _ _ _) rfl
  have hother : (s₀.record i nd (.counted m :: outs)).nodes j = s₀.nodes j := by
    simp [SystemState.record, hij.symm]
  obtain ⟨m', _, nd', outs', hstep', hstuffed', hcopy'⟩ :=
    exists_copy_step (s := s₀.record i nd (.counted m :: outs)) (b := emptyBlock)
      hj hv'.1 hv'.2.1 hv'.2.2 rfl ⟨[], rfl⟩ htext (by rw [hother]; exact inLine_new rfl _ _ _)
      (by rw [hother]; rfl)
  let s := (s₀.record i nd (.counted m :: outs)).record j nd' (.counted m' :: outs')
  have hs : SystemReachable c s := (hs₀.next hstep).next hstep'
  have hhistory : history i s.log = (.counted m :: outs).reverse := by
    rw [record_history_of_ne _ hij, record_history_self]
    exact List.append_nil _
  have hhistory' : history j s.log = (.counted m' :: outs').reverse := by
    rw [record_history_self, record_history_of_ne _ hij.symm]
    exact List.append_nil _
  refine ⟨s, hs, ?_, ?_, kept_of_first hs hi hhistory hcopy, kept_of_first hs hj hhistory' hcopy'⟩
  · rw [← mem_history, hhistory, List.mem_reverse]
    exact (hstuffed.delivered _).mpr rfl
  · rw [← mem_history, hhistory', List.mem_reverse]
    exact (hstuffed'.delivered _).mpr rfl

end ChosenCopies

section Names

/-- Both databases have the same name for their last block, and the same successors. -/
def NamedAlike (digest digest' : Str) (db db' : Database) : Prop :=
  digest = digest' ∧ ∀ next, db.Links next ↔ db'.Links next

/-- The successors of the last block are those that name it. -/
theorem links_iff
    {db : Database} {digest : Str}
    (h : db.digests.getLast? = some digest)
    (next : Block) :
    db.Links next ↔ next.header.prevBlockDigest = digest := by
  have hne : db.digests ≠ [] := by
    intro hnil
    rw [hnil] at h
    cases h
  rw [Database.Links, h]
  simp [hne, eq_comm]

/-- Databases are named alike if and only if the digests are equal. -/
theorem namedAlike_iff
    {db db' : Database} {digest digest' : Str}
    (h : db.digests.getLast? = some digest)
    (h' : db'.digests.getLast? = some digest') :
    NamedAlike digest digest' db db' ↔ digest = digest' := by
  constructor
  · exact fun hnamed => hnamed.1
  · rintro rfl
    refine ⟨rfl, fun next => ?_⟩
    rw [links_iff h, links_iff h']

variable [P : StoragePlatform]

/-- `addBlock` stores the block under the digest. -/
def Database.Stores (db : Database) (b : Block) (digest : Str) (db' : Database) : Prop :=
  ∃ files opens result files', db.addBlock files b opens = (result, db', files') ∧
    db'.digests = db.digests ++ [digest]

theorem Database.Stores.getDigest_eq
    {db db' : Database} {b : Block} {digest : Str}
    (h : db.Stores b digest db') :
    b.getDigest = .ok digest ∧ db'.digests.getLast? = some digest := by
  obtain ⟨files, opens, result, files', hadd, hdigests⟩ := h
  have hlast : db'.digests.getLast? = some digest := by rw [hdigests, List.getLast?_concat]
  refine ⟨?_, hlast⟩
  have hne : db' ≠ db := by
    rintro rfl
    have hlength := congrArg List.length hdigests
    simp at hlength
  rcases addBlock_eq hadd with ⟨_, _, hsame, _⟩ | ⟨_, _, _, hsame, _⟩ | ⟨digest', _, _, hget, hpush, _⟩
  · exact absurd hsame hne
  · exact absurd hsame hne
  · rw [hpush] at hdigests
    have hlast : [digest'] = [digest] := List.append_cancel_left hdigests
    rw [hget, (List.cons.inj hlast).1]

/-- A frozen block with a digest is stored by an empty database. -/
theorem stores_first
    {b : Block} {digest : Str}
    (h : b.getDigest = .ok digest) :
    ∃ db', Database.Stores {} b digest db' := by
  cases hadd : Database.addBlock {} (fun _ => none) b true with
  | mk result after =>
      refine ⟨after.1, fun _ => none, true, result, after.2, hadd, ?_⟩
      rcases addBlock_eq hadd with ⟨hlinks, _⟩ | ⟨_, hget, _⟩ | ⟨digest', _, _, hget, hpush, _⟩
      · exact absurd (Or.inl rfl) hlinks
      · rw [h] at hget
        cases hget
      · obtain rfl := Except.ok.inj (h.symm.trans hget)
        rw [hpush]
        rfl

variable [LawfulPlatform P.toPlatform] [BracedObjects P.toPlatform]

/-- The text determines the signer and the key. -/
theorem digestText_inj
    {b b' : Block} {text : Str}
    (hfull : b.validatorNextPublicKey.FullLength)
    (hfull' : b'.validatorNextPublicKey.FullLength)
    (hid : b.header.getID = b'.header.getID)
    (h : b.digestText = .ok text)
    (h' : b'.digestText = .ok text) :
    b.validatorId = b'.validatorId ∧ b.validatorNextPublicKey = b'.validatorNextPublicKey := by
  obtain ⟨_, hsigner, part, hpart, hpart'⟩ :=
    digestText_parts (congrArg List.length hid) (Or.inr hfull) (Or.inr hfull') h h'
  exact ⟨hsigner, hpart.inj sigKeyToString_inj hpart'⟩

/--
Two databases name the copies that two nodes keep of a block, each at a time of
its own, alike if and only if the copies have the same signer and announce the
same key.
-/
theorem named_alike_iff
    (c : Committee) (s s' : SystemState)
    (hs : SystemReachable c s)
    (hs' : SystemReachable c s')
    (i j : UInt16)
    (hi : c.Correct i)
    (hj : c.Correct j)
    (h : Str) (b b' : Block)
    (hb : (s.nodes i).blocks.lookup h = some b)
    (hb' : (s'.nodes j).blocks.lookup h = some b')
    (hfree : ∀ x y, b.digestText = .ok x → b'.digestText = .ok y → hash x = hash y → x = y)
    (db₀ db db₀' db' : Database) (digest digest' : Str)
    (hstore : db₀.Stores b digest db)
    (hstore' : db₀'.Stores b' digest' db') :
    NamedAlike digest digest' db db' ↔
      b.validatorId = b'.validatorId ∧ b.validatorNextPublicKey = b'.validatorNextPublicKey := by
  obtain ⟨hid, hfull⟩ := kept_copy hs hi hb
  obtain ⟨hid', hfull'⟩ := kept_copy hs' hj hb'
  obtain ⟨hget, hlast⟩ := hstore.getDigest_eq
  obtain ⟨hget', hlast'⟩ := hstore'.getDigest_eq
  obtain ⟨text, htext, rfl⟩ := getDigest_eq_hash hget
  obtain ⟨text', htext', rfl⟩ := getDigest_eq_hash hget'
  rw [namedAlike_iff hlast hlast']
  constructor
  · intro hsame
    obtain rfl := hfree text text' htext htext' hsame
    exact digestText_inj hfull hfull' (hid.trans hid'.symm) htext htext'
  · rintro ⟨hsigner, hkey⟩
    have htexts : b.digestText = b'.digestText := by
      unfold Block.digestText
      rw [hid, hid', hsigner, hkey]
    rw [Except.ok.inj (htext.symm.trans (htexts.trans htext'))]

end Names

instance textStorage_bracedObjects : BracedObjects textStorage.toPlatform :=
  textPlatform_bracedObjects

/-- Seven validators, of which two are faulty. -/
def twoOfSeven : Committee where
  vals := {0, 1, 2, 3, 4, 5, 6}
  f := 2
  leader := 0
  byz := {5, 6}
  leader_mem := by decide
  byz_subset := by decide
  byz_card := by decide
  card_lt := by decide

/-- Copies with the same signer and key are named alike. -/
theorem same_signer_named_alike :
    letI := textStorage
    ∃ s b b' digest digest' db db', SystemReachable twoOfSeven s ∧
      (s.nodes 0).blocks.lookup emptyBlock.header.getID = some b ∧
      (s.nodes 1).blocks.lookup emptyBlock.header.getID = some b' ∧
      Database.Stores {} b digest db ∧ Database.Stores {} b' digest' db' ∧
      NamedAlike digest digest' db db' := by
  let _ := textStorage
  obtain ⟨s, hs, _, _, ⟨b, hb, hcopy⟩, b', hb', hcopy'⟩ := exists_two_copies (c := twoOfSeven)
    (i := 0) (j := 1) (by decide) (by decide) (by decide) 5 6 5 6 (by decide) (by decide)
    sigKeyToString_blankKey
  obtain ⟨db, hstore⟩ := stores_first (hcopy.getDigest_eq sigKeyToString_blankKey)
  obtain ⟨db', hstore'⟩ := stores_first (hcopy'.getDigest_eq sigKeyToString_blankKey)
  have htexts : b.digestText = b'.digestText := by
    rw [Block.digestText, Block.digestText, hcopy.signer, hcopy'.signer, hcopy.key, hcopy'.key,
      hcopy.block.header, hcopy'.block.header]
  refine ⟨s, b, b', _, _, db, db', hs, hb, hb', hstore, hstore', ?_⟩
  refine (named_alike_iff (P := textStorage) twoOfSeven s s hs hs 0 1 (by decide) (by decide) _ b b' hb
    hb' ?_ {} db {} db' _ _ hstore hstore').mpr ⟨?_, ?_⟩
  · intro x y hx hy _
    exact Except.ok.inj (hx.symm.trans (htexts.trans hy))
  · rw [hcopy.signer, hcopy'.signer]
  · rw [hcopy.key, hcopy'.key]

set_option maxRecDepth 10000 in
theorem blankText_digests :
    Sha256.digest (Sha256.digest [] ++ decimal 5 ++ blankText) ≠
      Sha256.digest (Sha256.digest [] ++ decimal 6 ++ blankText) := by
  decide +kernel

/-- Two databases store the same accepted block under different names. -/
theorem signers_name_the_block :
    letI := textStorage
    ∃ s b b' digest digest' db db', SystemReachable twoOfSeven s ∧
      (0, .delivered emptyBlock.header.getID) ∈ s.log ∧
      (1, .delivered emptyBlock.header.getID) ∈ s.log ∧
      (s.nodes 0).blocks.lookup emptyBlock.header.getID = some b ∧
      (s.nodes 1).blocks.lookup emptyBlock.header.getID = some b' ∧
      b.header = b'.header ∧ b.txs = b'.txs ∧ b.validatorId ≠ b'.validatorId ∧
      Database.Stores {} b digest db ∧ Database.Stores {} b' digest' db' ∧
      digest ≠ digest' ∧ db.Links (blockAfter digest) ∧ ¬ db'.Links (blockAfter digest) := by
  let _ := textStorage
  obtain ⟨s, hs, hdel, hdel', ⟨b, hb, hcopy⟩, b', hb', hcopy'⟩ := exists_two_copies
    (c := twoOfSeven) (i := 0) (j := 1) (by decide) (by decide) (by decide) 6 5 5 6 (by decide)
    (by decide) sigKeyToString_blankKey
  obtain ⟨db, hstore⟩ := stores_first (hcopy.getDigest_eq sigKeyToString_blankKey)
  obtain ⟨db', hstore'⟩ := stores_first (hcopy'.getDigest_eq sigKeyToString_blankKey)
  have hne := blankText_digests
  refine ⟨s, b, b', _, _, db, db', hs, hdel, hdel', hb, hb', ?_, ?_, ?_, hstore, hstore', hne,
    ?_, ?_⟩
  · rw [hcopy.block.header, hcopy'.block.header]
  · rw [hcopy.block.txs, hcopy'.block.txs]
  · rw [hcopy.signer, hcopy'.signer]
    decide
  · exact (links_iff hstore.getDigest_eq.2 _).mpr rfl
  · rw [links_iff hstore'.getDigest_eq.2]
    exact hne

end CosiCoin
