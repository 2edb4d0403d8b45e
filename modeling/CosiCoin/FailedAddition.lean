import CosiCoin.BlockDatabase
import CosiCoin.BlockRestoration

/-!
# COSICOIN: additions that fail

`addBlock` can throw at three places: in `getDigest`, in `to_json`, where every
stored block is written with `to_string`, and in `save`, when the file cannot be
opened.  Only the first of them comes before the updates of `blocks_` and
`digests_`.  After the others the new block stays behind, and with its digest as
the last one the next block of the chain is refused.
-/

namespace CosiCoin

section Failures

variable [StoragePlatform]

/-- A block `getDigest` throws for. -/
def Block.Undigestible (b : Block) : Prop :=
  b.isMutable = true ∨
  (b.validatorNextPublicKey.S0 ≠ [] ∧ b.validatorNextPublicKey.S1 ≠ [] ∧
    (¬ b.validatorNextPublicKey.FullLength ∨
      ∃ e, dump (keyDocument b.validatorNextPublicKey.S0 b.validatorNextPublicKey.S1) = .error e))

/-- Every block of the chain has a text, the file opens and the document is written. -/
structure Database.Writable (db : Database) (opens : Bool) : Prop where
  texts : ∀ digest ∈ db.digests, ∃ text, (db.blockAt digest).toText = .ok text
  opens : opens = true
  document : ∀ j, db.toJson = .ok j → ∃ text, dumpIndented j = .ok text

/-- What an exception is to leave: the same chain, to which the same blocks can be added. -/
structure Database.LeavesUnchanged (db db' : Database) : Prop where
  digests : db'.digests = db.digests
  blocks : db'.blocks = db.blocks
  later : ∀ files files' block opens,
    (db.addBlock files block opens).1 = .ok 0 → (db'.addBlock files' block opens).1 = .ok 0

/-- A call that throws changes nothing. -/
def Database.FailsSafely (db : Database) (files : Files) (block : Block) (opens : Bool) : Prop :=
  ∀ e db' files', db.addBlock files block opens = (.error e, db', files') → db.LeavesUnchanged db'

theorem Block.undigestible_iff
    (b : Block) :
    b.Undigestible ↔ ∃ e, b.getDigest = .error e := by
  unfold Block.Undigestible Block.getDigest sigKeyToString
  cases b.isMutable with
  | true =>
      simp
  | false =>
      by_cases hkey : b.validatorNextPublicKey.S0 ≠ [] ∧ b.validatorNextPublicKey.S1 ≠ []
      · by_cases hfull : b.validatorNextPublicKey.FullLength
        · cases dump (keyDocument b.validatorNextPublicKey.S0 b.validatorNextPublicKey.S1) with
          | error e =>
              simp [hkey, hfull, Except.map]
          | ok text =>
              simp [hkey, hfull, Except.map]
        · simp [hkey, hfull, Except.map]
      · simp only [if_neg hkey]
        constructor
        · rintro (hfalse | ⟨h0, h1, _⟩)
          · cases hfalse
          · exact absurd ⟨h0, h1⟩ hkey
        · rintro ⟨e, he⟩
          cases he

/-- `to_json` throws exactly when `to_string` throws for a stored block. -/
theorem exists_toJson_iff
    (db : Database) :
    (∃ j, db.toJson = .ok j) ↔
      ∀ digest ∈ db.digests, ∃ text, (db.blockAt digest).toText = .ok text := by
  constructor
  · rintro ⟨j, hj⟩ digest hmem
    obtain ⟨elements, helements, _⟩ := bind_eq_ok hj
    obtain ⟨el, hel⟩ := exists_of_mapM_eq_ok helements digest hmem
    obtain ⟨text, htext, _⟩ := bind_eq_ok hel
    exact ⟨text, htext⟩
  · intro htexts
    have helement : ∀ digest ∈ db.digests, ∃ el, db.toElement digest = .ok el ∧ True := by
      intro digest hmem
      obtain ⟨text, htext⟩ := htexts digest hmem
      refine ⟨.obj [(nameBlock, .str text), (nameDigest, .str digest)], ?_, trivial⟩
      rw [Database.toElement, htext]
      rfl
    obtain ⟨elements, helements, _⟩ := exists_mapM helement
    refine ⟨chainDocument elements, ?_⟩
    rw [Database.toJson, helements]
    rfl

/-- `save` returns exactly for a writable chain. -/
theorem save_fst_eq_ok_iff
    (db : Database) (files : Files) (filename : Str) (opens : Bool) :
    (db.save files filename opens).1 = .ok () ↔ db.Writable opens := by
  constructor
  · intro hsaved
    obtain ⟨hopens, j, text, hjson, hdump, _⟩ := save_eq_ok_iff.mp (Prod.ext hsaved rfl)
    refine ⟨(exists_toJson_iff db).mp ⟨j, hjson⟩, hopens, ?_⟩
    intro j' hj'
    obtain rfl := Except.ok.inj (hjson.symm.trans hj')
    exact ⟨text, hdump⟩
  · intro h
    obtain ⟨j, hjson⟩ := (exists_toJson_iff db).mpr h.texts
    obtain ⟨text, hdump⟩ := h.document j hjson
    exact congrArg Prod.fst (save_eq_ok_iff.mpr ⟨h.opens, j, text, hjson, hdump, rfl⟩)

/-- A block that cannot be saved stays in the database. -/
theorem addBlock_left_behind
    {db : Database} {block : Block} {digest : Str} {opens : Bool}
    (hlinks : db.Links block)
    (hdigest : block.getDigest = .ok digest)
    (hwritable : ¬ (db.push digest block).Writable opens)
    (files : Files) :
    ∃ e files', db.addBlock files block opens = (.error e, db.push digest block, files') := by
  have hsave : ∃ e files', (db.push digest block).save files db.filename opens =
      (.error e, files') := by
    cases hresult : (db.push digest block).save files db.filename opens with
    | mk saved files' =>
        cases saved with
        | error e =>
            exact ⟨e, files', rfl⟩
        | ok u =>
            refine absurd ?_ hwritable
            rw [← save_fst_eq_ok_iff _ files db.filename opens, hresult]
  obtain ⟨e, files', hsave⟩ := hsave
  refine ⟨e, files', ?_⟩
  unfold Database.addBlock
  rw [if_pos hlinks, hdigest]
  dsimp only
  rw [show (db.push digest block).filename = db.filename from rfl, hsave]

theorem not_leavesUnchanged_push
    (db : Database) (digest : Str) (block : Block) :
    ¬ db.LeavesUnchanged (db.push digest block) := by
  intro h
  have hlength := congrArg List.length h.digests
  rw [Database.push, List.length_append, List.length_singleton] at hlength
  omega

/-- `addBlock` returns 0 exactly when the block fits and the chain with it can be written. -/
theorem addBlock_eq_zero_iff
    (db : Database) (files : Files) (block : Block) (opens : Bool) :
    (db.addBlock files block opens).1 = .ok 0 ↔
      db.Links block ∧
      ∃ digest, block.getDigest = .ok digest ∧ (db.push digest block).Writable opens := by
  cases hcall : db.addBlock files block opens with
  | mk result rest =>
      obtain ⟨db', files'⟩ := rest
      rcases addBlock_eq hcall with ⟨hlinks, rfl, _⟩ | ⟨e, hdigest, rfl, _⟩ |
          ⟨digest, saved, hlinks, hdigest, rfl, hsave, rfl⟩
      · simp [hlinks]
      · simp [hdigest]
      · have hiff := save_fst_eq_ok_iff (db.push digest block) files db.filename opens
        rw [hsave] at hiff
        cases saved with
        | error e =>
            simp [hdigest, ← hiff, Except.map]
        | ok u =>
            simp [hlinks, hdigest, ← hiff, Except.map]

/-- Nothing changes when the database is the same: the result does not depend on the files. -/
theorem leavesUnchanged_refl
    (db : Database) :
    db.LeavesUnchanged db := by
  refine ⟨rfl, rfl, ?_⟩
  intro files files' block opens hadded
  rw [addBlock_eq_zero_iff] at hadded ⊢
  exact hadded

/--
`addBlock` changes nothing when it throws if and only if it refuses the block, it
cannot digest it, or the chain with the block can be written.
-/
theorem addBlock_failsSafely_iff
    (db : Database) (files : Files) (block : Block) (opens : Bool) :
    db.FailsSafely files block opens ↔
      ¬ db.Links block ∨ block.Undigestible ∨
      ∀ digest, block.getDigest = .ok digest → (db.push digest block).Writable opens := by
  constructor
  · intro hsafe
    by_contra hunsafe
    push Not at hunsafe
    obtain ⟨hlinks, _, digest, hdigest, hwritable⟩ := hunsafe
    obtain ⟨e, files', hcall⟩ := addBlock_left_behind hlinks hdigest hwritable files
    exact not_leavesUnchanged_push db digest block (hsafe e _ files' hcall)
  · intro hsafe e db' files' hcall
    rcases addBlock_eq hcall with ⟨_, hone, _⟩ | ⟨_, _, _, rfl, _⟩ |
        ⟨digest, saved, hlinks, hdigest, rfl, hsave, hresult⟩
    · cases hone
    · exact leavesUnchanged_refl db'
    · rcases hsafe with hrefused | hundigestible | hwritable
      · exact absurd hlinks hrefused
      · obtain ⟨e', he'⟩ := (Block.undigestible_iff block).mp hundigestible
        rw [hdigest] at he'
        cases he'
      · have hsaved := (save_fst_eq_ok_iff _ files db.filename opens).mpr (hwritable digest hdigest)
        rw [hsave] at hsaved
        obtain rfl : saved = .ok () := hsaved
        cases hresult

end Failures

section UnsignedBlock

/-- A frozen block that nobody signed, so that it has no next key. -/
def unsignedCoinBlock [Platform] : Block :=
  { coinBlock with validatorNextPublicKey := {} }

/-- `to_string` throws for a block without a next key. -/
theorem unsignedCoinBlock_toText
    [Platform] (text : Str) :
    unsignedCoinBlock.toText ≠ .ok text := by
  intro h
  obtain ⟨_, _, h⟩ := bind_eq_ok h
  obtain ⟨_, _, h⟩ := bind_eq_ok h
  obtain ⟨_, _, h⟩ := bind_eq_ok h
  obtain ⟨key, hkey, _⟩ := bind_eq_ok h
  have hlength : ([] : List Str).length = keyLen := (fullLength_of_sigKeyToString hkey).1
  exact absurd hlength (by decide)

/--
The unsigned block is digested but not written.  The exception leaves its digest
in the empty database, and the block that could be added before is refused.
-/
theorem unsigned_block_is_left_behind :
    letI := textStorage
    ∃ e db' files',
      Database.addBlock {} (fun _ => none) unsignedCoinBlock true = (.error e, db', files') ∧
      db'.digests.length = 1 ∧
      (Database.addBlock {} (fun _ => none) coinBlock true).1 = .ok 0 ∧
      (db'.addBlock files' coinBlock true).1 = .ok 1 ∧
      ¬ Database.FailsSafely {} (fun _ => none) unsignedCoinBlock true := by
  let _ := textStorage
  have hdigest : unsignedCoinBlock.getDigest =
      .ok (hash (unsignedCoinBlock.header.getID ++ decimal 0)) := rfl
  have hwritable : ¬ (Database.push {} (hash (unsignedCoinBlock.header.getID ++ decimal 0))
      unsignedCoinBlock).Writable true := by
    intro h
    obtain ⟨text, htext⟩ := h.texts _ (List.mem_singleton_self _)
    rw [Database.blockAt_push, if_pos rfl] at htext
    exact unsignedCoinBlock_toText text htext
  obtain ⟨e, files', hcall⟩ := addBlock_left_behind (Or.inl rfl) hdigest hwritable (fun _ => none)
  refine ⟨e, _, files', hcall, rfl, ?_, ?_, ?_⟩
  · obtain ⟨digest, files, hadded⟩ := addBlock_first coinBlock_printable rfl
    rw [hadded]
  · -- the last digest has 64 characters, the named one none
    have hrefused : ¬ (Database.push {} (hash (unsignedCoinBlock.header.getID ++ decimal 0))
        unsignedCoinBlock).Links coinBlock := by
      rintro (hnil | hlast)
      · cases hnil
      · have hsame : hash (unsignedCoinBlock.header.getID ++ decimal 0) = [] :=
          Option.some.inj hlast
        have hlength := (LawfulPlatform.hash_hex (P := textPlatform)
          (unsignedCoinBlock.header.getID ++ decimal 0)).1
        rw [hsame] at hlength
        cases hlength
    unfold Database.addBlock
    rw [if_neg hrefused]
  · intro hsafe
    exact not_leavesUnchanged_push _ _ _ (hsafe e _ files' hcall)

end UnsignedBlock

end CosiCoin
