import CosiCoin.LabelledRuns
import CosiCoin.PrintableBlocks
import Mathlib.Data.List.AList

/-!
# COSICOIN: the block database

The class `Database` of lib/database.  It keeps the digests of the blocks in the
order of their addition and the blocks under their digests, and writes the whole
chain to its file after every addition.

`addBlock` appends to both before it saves, so an exception of `save` leaves the
new block in the database; an exception of `getDigest` and a refusal leave
everything as it was.  The invariant `ChainInv` holds after each call, however it
ends.
-/

namespace CosiCoin

open LabelledRuns

/-- What the database needs of the JSON library besides `dump` and `parse`. -/
class StoragePlatform extends Platform where
  /-- `dump(4)`. -/
  dumpIndented : Json → Except String Str
  /-- `i >> j`: one document at the head of a file. -/
  readStream : Str → Except String Json

export StoragePlatform (dumpIndented readStream)

/-- A document is read back from a file that begins with its text. -/
class LawfulStorage (P : StoragePlatform) : Prop extends LawfulPlatform P.toPlatform where
  read_dumpIndented : ∀ {j : Json} {s : Str}, dumpIndented j = .ok s → readStream s = .ok j

/-- The contents of the files that can be opened for reading. -/
abbrev Files := Str → Option Str

/-- `Database`. -/
structure Database where
  blocks : AList (fun _ : Str => Block) := ∅
  digests : List Str := []
  filename : Str := []

/-- The member name "blockchain". -/
def nameBlockchain : Str := ascii ['b', 'l', 'o', 'c', 'k', 'c', 'h', 'a', 'i', 'n']

/-- The member name "block". -/
def nameBlock : Str := ascii ['b', 'l', 'o', 'c', 'k']

/-- The member name "digest". -/
def nameDigest : Str := ascii ['d', 'i', 'g', 'e', 's', 't']

/-- A string inside the text of an exception. -/
def shown (s : Str) : String :=
  String.ofList (s.map fun c => Char.ofNat c.toNat)

/-- The document of a chain, null when nothing was pushed. -/
def chainDocument (elements : List Json) : Json :=
  if elements = [] then .null else .obj [(nameBlockchain, .arr elements)]

namespace Database

section Saving

variable [StoragePlatform]

/-- `blocks_[digest]`; every digest has a block, so nothing is inserted. -/
def blockAt (db : Database) (digest : Str) : Block :=
  (db.blocks.lookup digest).getD {}

/-- An element of "blockchain". -/
def toElement (db : Database) (digest : Str) : Except String Json := do
  let text ← (db.blockAt digest).toText
  return .obj [(nameBlock, .str text), (nameDigest, .str digest)]

/-- `Database::to_json` on a null document. -/
def toJson (db : Database) : Except String Json := do
  let elements ← db.digests.mapM db.toElement
  return chainDocument elements

/--
`Database::save`; `opens` says whether the file can be opened for writing, which
empties it.
-/
def save (db : Database) (files : Files) (filename : Str) (opens : Bool) :
    Except String Unit × Files :=
  match db.toJson with
  | .error e => (.error e, files)
  | .ok j =>
      if opens = false then
        (.error s!"Could not open file for writing: {shown filename}", files)
      else
        match dumpIndented j with
        | .error e => (.error e, Function.update files filename (some []))
        | .ok text => (.ok (), Function.update files filename (some text))

/-- The database with one more block. -/
def push (db : Database) (digest : Str) (block : Block) : Database :=
  { db with
    blocks := db.blocks.insert digest block
    digests := db.digests ++ [digest] }

/-- The block names the last digest, if there is one, as the previous one. -/
def Links (db : Database) (block : Block) : Prop :=
  db.digests = [] ∨ db.digests.getLast? = some block.header.prevBlockDigest

instance (db : Database) (block : Block) : Decidable (db.Links block) :=
  inferInstanceAs (Decidable (_ ∨ _))

/-- `Database::addBlock`: the returned number or the exception, and what is left. -/
def addBlock (db : Database) (files : Files) (block : Block) (opens : Bool) :
    Except String Int × Database × Files :=
  if db.Links block then
    match block.getDigest with
    | .error e => (.error e, db, files)
    | .ok digest =>
        let db := db.push digest block
        match db.save files db.filename opens with
        | (.error e, files) => (.error e, db, files)
        | (.ok (), files) => (.ok 0, db, files)
  else
    (.ok 1, db, files)

/-- `Database::getBlock`. -/
def getBlock (db : Database) (digest : Str) : Except String Block :=
  match db.blocks.lookup digest with
  | some block => .ok block
  | none => .error s!"No block with digest {shown digest} in blockchain"

/-- `Database::getBlockDigests`. -/
def getBlockDigests (db : Database) : List Str :=
  db.digests

end Saving

section Loading

variable [StoragePlatform]

/-- The loop of `from_json`: the digest is appended before the block is read. -/
def fromElements : List Json → Database → Except String Unit × Database
  | [], db => (.ok (), db)
  | el :: rest, db =>
      match el.at nameDigest >>= Json.getString with
      | .error e => (.error e, db)
      | .ok digest =>
          let db := { db with digests := db.digests ++ [digest] }
          match el.at nameBlock >>= Json.getString >>= Block.fromText with
          | .error e => (.error e, db)
          | .ok block => fromElements rest { db with blocks := db.blocks.insert digest block }

/-- `Database::from_json`. -/
def fromJson (db : Database) (j : Json) : Except String Unit × Database :=
  let db := { db with blocks := ∅, digests := [] }
  match j.at nameBlockchain with
  | .error e => (.error e, db)
  | .ok elements => fromElements elements.items db

/-- `Database::load`; a file that cannot be opened gives an empty database. -/
def load (db : Database) (files : Files) (filename : Str) : Except String Unit × Database :=
  let db := { db with filename := filename }
  match files filename with
  | none => (.ok (), { db with blocks := ∅, digests := [] })
  | some text =>
      match readStream text with
      | .error e => (.error e, db)
      | .ok j => db.fromJson j

/-- `Database::Database`, which does to a new object what `load` does to an old one. -/
def new (files : Files) (filename : Str) : Except String Database :=
  match load {} files filename with
  | (.error e, _) => .error e
  | (.ok (), db) => .ok db

end Loading

end Database

section Calls

variable [StoragePlatform]

/-- `save` returns when the document is built, the file opens and the text is written. -/
theorem save_eq_ok_iff
    {db : Database} {files files' : Files} {filename : Str} {opens : Bool} :
    db.save files filename opens = (.ok (), files') ↔
      opens = true ∧ ∃ j text, db.toJson = .ok j ∧ dumpIndented j = .ok text ∧
        files' = Function.update files filename (some text) := by
  unfold Database.save
  cases hjson : db.toJson with
  | error e =>
      simp
  | ok j =>
      cases opens with
      | false =>
          simp
      | true =>
          cases hdump : dumpIndented j with
          | error e =>
              simp [hdump]
          | ok text =>
              simp [hdump, eq_comm]

/-- How a call ends: refused, with an exception before any change, or with the block added. -/
theorem addBlock_eq
    {db db' : Database} {files files' : Files} {block : Block} {opens : Bool}
    {result : Except String Int}
    (h : db.addBlock files block opens = (result, db', files')) :
    (¬ db.Links block ∧ result = .ok 1 ∧ db' = db ∧ files' = files) ∨
    (∃ e, block.getDigest = .error e ∧ result = .error e ∧ db' = db ∧ files' = files) ∨
    ∃ digest saved, db.Links block ∧ block.getDigest = .ok digest ∧
      db' = db.push digest block ∧ db'.save files db.filename opens = (saved, files') ∧
      result = saved.map fun _ => 0 := by
  unfold Database.addBlock at h
  by_cases hlinks : db.Links block
  · rw [if_pos hlinks] at h
    cases hdigest : block.getDigest with
    | error e =>
        rw [hdigest, Prod.mk.injEq, Prod.mk.injEq] at h
        exact Or.inr (Or.inl ⟨e, rfl, h.1.symm, h.2.1.symm, h.2.2.symm⟩)
    | ok digest =>
        have hname : (db.push digest block).filename = db.filename := rfl
        rw [hdigest] at h
        dsimp only at h
        rw [hname] at h
        cases hsave : (db.push digest block).save files db.filename opens with
        | mk saved saved' =>
            rw [hsave] at h
            cases saved with
            | error e =>
                rw [Prod.mk.injEq, Prod.mk.injEq] at h
                obtain ⟨rfl, rfl, rfl⟩ := h
                exact Or.inr (Or.inr ⟨digest, .error e, hlinks, rfl, rfl, hsave, rfl⟩)
            | ok u =>
                rw [Prod.mk.injEq, Prod.mk.injEq] at h
                obtain ⟨rfl, rfl, rfl⟩ := h
                exact Or.inr (Or.inr ⟨digest, .ok u, hlinks, rfl, rfl, hsave, rfl⟩)
  · rw [if_neg hlinks, Prod.mk.injEq, Prod.mk.injEq] at h
    exact Or.inl ⟨hlinks, h.1.symm, h.2.1.symm, h.2.2.symm⟩

end Calls

section Printing

open JsonText

/-- A chain of printable text is written. -/
class UnicodeStorage (P : StoragePlatform) : Prop extends UnicodeJson P.toPlatform where
  dumpIndented_unicode : ∀ {j : Json}, isUnicode j = true → ∃ text, dumpIndented j = .ok text

/-- SHA-256 with the JSON text of documents in UTF-8, in both layouts. -/
@[reducible] def textStorage : StoragePlatform where
  toPlatform := textPlatform
  dumpIndented := JsonText.dump indented
  readStream := JsonText.read

instance textStorage_lawful : LawfulStorage textStorage where
  toLawfulPlatform := textPlatform_lawful
  read_dumpIndented := by
    intro j text h
    exact (read_dump h).2

instance textStorage_unicodeStorage : UnicodeStorage textStorage where
  toUnicodeJson := textPlatform_unicodeJson
  dumpIndented_unicode := exists_dump indented

/-- Every block of the chain can be written. -/
def Database.Printable (db : Database) : Prop :=
  ∀ digest ∈ db.digests, isUtf8 digest = true ∧ (db.blockAt digest).Printable

theorem Database.blockAt_push
    (db : Database) (digest : Str) (block : Block) (d : Str) :
    (db.push digest block).blockAt d = if d = digest then block else db.blockAt d := by
  unfold Database.blockAt Database.push
  split_ifs with hd
  · rw [hd, AList.lookup_insert, Option.getD_some]
  · rw [AList.lookup_insert_ne hd]

theorem Database.Printable.push
    {db : Database} {digest : Str} {block : Block}
    (hdb : db.Printable)
    (hdigest : isUtf8 digest = true)
    (hblock : block.Printable) :
    (db.push digest block).Printable := by
  intro d hd
  rw [Database.blockAt_push]
  rcases List.mem_append.mp hd with hold | hnew
  · split_ifs
    · exact ⟨(hdb d hold).1, hblock⟩
    · exact hdb d hold
  · rw [if_pos (List.mem_singleton.mp hnew), List.mem_singleton.mp hnew]
    exact ⟨hdigest, hblock⟩

variable [P : StoragePlatform] [UnicodeStorage P]

/-- A printable chain is saved when the file opens. -/
theorem Database.Printable.save
    {db : Database}
    (h : db.Printable)
    (files : Files) (filename : Str) :
    ∃ files', db.save files filename true = (.ok (), files') := by
  have helement : ∀ digest ∈ db.digests, ∃ el, db.toElement digest = .ok el ∧
      isUnicode el = true := by
    intro digest hmem
    obtain ⟨hdigest, hblock⟩ := h digest hmem
    obtain ⟨text, htext, hutf8⟩ := Block.toText_utf8 hblock
    refine ⟨_, by rw [Database.toElement, htext]; rfl, ?_⟩
    apply isUnicode_obj
    intro m hm
    simp only [List.mem_cons, List.not_mem_nil, or_false] at hm
    rcases hm with rfl | rfl
    · exact ⟨rfl, isUnicode_str hutf8⟩
    · exact ⟨rfl, isUnicode_str hdigest⟩
  obtain ⟨elements, helements, hutf8⟩ := exists_mapM helement
  have hjson : db.toJson = .ok (chainDocument elements) := by
    rw [Database.toJson, helements]
    rfl
  have hdocument : isUnicode (chainDocument elements) = true := by
    unfold chainDocument
    split_ifs
    · rw [isUnicode]
    · apply isUnicode_obj
      intro m hm
      obtain rfl := List.mem_singleton.mp hm
      exact ⟨rfl, isUnicode_arr hutf8⟩
  obtain ⟨text, htext⟩ := UnicodeStorage.dumpIndented_unicode (P := P) hdocument
  exact ⟨_, save_eq_ok_iff.mpr ⟨rfl, _, text, hjson, htext, rfl⟩⟩

/-- A printable frozen block that names the last digest is added to a printable chain. -/
theorem addBlock_printable
    [LawfulStorage P]
    {db : Database} {block : Block}
    (hdb : db.Printable)
    (hblock : block.Printable)
    (hfrozen : block.isMutable = false)
    (hlinks : db.Links block)
    (files : Files) :
    ∃ digest files', db.addBlock files block true = (.ok 0, db.push digest block, files') ∧
      (db.push digest block).Printable ∧ block.getDigest = .ok digest := by
  obtain ⟨digest, hdigest, hutf8⟩ := Block.getDigest_utf8 hblock hfrozen
  have hpush := hdb.push hutf8 hblock
  obtain ⟨files', hsave⟩ := hpush.save files db.filename
  refine ⟨digest, files', ?_, hpush, hdigest⟩
  unfold Database.addBlock
  rw [if_pos hlinks, hdigest]
  dsimp only
  rw [show (db.push digest block).filename = db.filename from rfl, hsave]

/-- A printable frozen block is the first of a chain. -/
theorem addBlock_first
    [LawfulStorage P]
    {block : Block}
    (hblock : block.Printable)
    (hfrozen : block.isMutable = false) :
    ∃ digest files, Database.addBlock {} (fun _ => none) block true =
      (.ok 0, Database.push {} digest block, files) := by
  have hprintable : ({} : Database).Printable := fun _ hd => absurd hd List.not_mem_nil
  obtain ⟨digest, files, hcall, _⟩ :=
    addBlock_printable hprintable hblock hfrozen (Or.inl rfl) (fun _ => none)
  exact ⟨digest, files, hcall⟩

end Printing

section Chains

variable [StoragePlatform]

/-- The invariant of the database. -/
structure ChainInv (db : Database) : Prop where
  nodup : db.digests.Nodup
  keys : ∀ digest, digest ∈ db.blocks ↔ digest ∈ db.digests
  stored : ∀ digest block, db.blocks.lookup digest = some block → block.getDigest = .ok digest
  linked : ∀ i digest digest', db.digests[i]? = some digest → db.digests[i + 1]? = some digest' →
    ∃ block, db.blocks.lookup digest' = some block ∧ block.header.prevBlockDigest = digest

/-- An empty database with any file name. -/
def Database.IsEmpty (db : Database) : Prop :=
  db.blocks = ∅ ∧ db.digests = []

theorem chainInv_empty
    {db : Database}
    (h : db.IsEmpty) :
    ChainInv db := by
  obtain ⟨hblocks, hdigests⟩ := h
  constructor
  · rw [hdigests]
    exact List.nodup_nil
  · intro digest
    simp [hblocks, hdigests]
  · intro digest block hlookup
    simp [hblocks] at hlookup
  · intro i digest digest' hi
    simp [hdigests] at hi

/-- A linked block with a new digest keeps the invariant. -/
theorem chainInv_push
    {db : Database} {digest : Str} {block : Block}
    (h : ChainInv db)
    (hlinks : db.Links block)
    (hdigest : block.getDigest = .ok digest)
    (hfresh : digest ∉ db.digests) :
    ChainInv (db.push digest block) := by
  have hkept : ∀ d ∈ db.digests, (db.push digest block).blocks.lookup d = db.blocks.lookup d := by
    intro d hd
    refine AList.lookup_insert_ne ?_
    rintro rfl
    exact hfresh hd
  constructor
  · exact List.nodup_append.mpr ⟨h.nodup, List.nodup_singleton digest, by
      rintro d hd d' hd' rfl
      exact hfresh (List.mem_singleton.mp hd' ▸ hd)⟩
  · intro d
    simp [Database.push, h.keys, or_comm]
  · intro d b hlookup
    by_cases hd : d = digest
    · subst hd
      have hsame : block = b := by
        simpa [Database.push] using hlookup
      rw [← hsame]
      exact hdigest
    · refine h.stored d b ?_
      rw [← hlookup]
      exact (AList.lookup_insert_ne hd).symm
  · intro i d d' hi hi'
    have hbound : i + 1 < db.digests.length + 1 := by
      have hlt := (List.getElem?_eq_some_iff.mp hi').1
      simpa [Database.push] using hlt
    rw [Database.push, List.getElem?_append_left (by omega)] at hi
    rcases Nat.lt_or_ge (i + 1) db.digests.length with hlt | hge
    · -- both digests were there before
      rw [Database.push, List.getElem?_append_left hlt] at hi'
      rw [hkept d' (List.mem_of_getElem? hi')]
      exact h.linked i d d' hi hi'
    · -- the second digest is the new one
      have hlast : i + 1 = db.digests.length := by omega
      rw [Database.push, List.getElem?_append_right hge, hlast, Nat.sub_self] at hi'
      obtain rfl : digest = d' := by simpa using hi'
      refine ⟨block, AList.lookup_insert _, ?_⟩
      rcases hlinks with hnil | hlinked
      · rw [hnil] at hlast
        cases hlast
      · rw [List.getLast?_eq_getElem?] at hlinked
        have hindex : db.digests.length - 1 = i := by omega
        rw [hindex, hi] at hlinked
        exact (Option.some.inj hlinked).symm

/-- The database and the files. -/
structure DatabaseState where
  db : Database
  files : Files

/-- One call: the block, and whether the file can be opened. -/
structure AddCall where
  block : Block
  opens : Bool

/-- One call of `addBlock`, however it ends. -/
def DatabaseStep (s : DatabaseState) (call : AddCall) (s' : DatabaseState) : Prop :=
  ∃ result, s.db.addBlock s.files call.block call.opens = (result, s'.db, s'.files)

/-- The digest of a block that is added is not stored already. -/
def FreshDigest (s : DatabaseState) (call : AddCall) : Prop :=
  s.db.Links call.block → ∀ digest, call.block.getDigest = .ok digest → digest ∉ s.db.digests

theorem chainInv_step
    (s : DatabaseState) (call : AddCall) (s' : DatabaseState)
    (h : ChainInv s.db)
    (hstep : Guarded FreshDigest DatabaseStep s call s') :
    ChainInv s'.db := by
  obtain ⟨hfresh, result, hcall⟩ := hstep
  rcases addBlock_eq hcall with
    ⟨_, _, hdb, _⟩ | ⟨_, _, _, hdb, _⟩ | ⟨digest, _, hlinks, hdigest, hdb, _⟩
  · rw [hdb]
    exact h
  · rw [hdb]
    exact h
  · rw [hdb]
    exact chainInv_push h hlinks hdigest (hfresh hlinks digest hdigest)

/--
After any sequence of calls on an empty database that adds no stored digest
again, the invariant holds.  A call that returns 1 changes nothing, one that
returns 0 appends one digest.
-/
theorem database_chain
    (s : DatabaseState)
    (hrun : Reachable (fun s => s.db.IsEmpty) (Guarded FreshDigest DatabaseStep) s) :
    ChainInv s.db ∧
      ∀ (block : Block) (opens : Bool) (result : Except String Int) (db' : Database)
        (files' : Files), s.db.addBlock s.files block opens = (result, db', files') →
        (result = .ok 1 → db' = s.db ∧ files' = s.files) ∧
        (result = .ok 0 → ∃ digest, db'.digests = s.db.digests ++ [digest]) := by
  refine ⟨hrun.invariant (fun _ h => chainInv_empty h) chainInv_step, ?_⟩
  intro block opens result db' files' hcall
  rcases addBlock_eq hcall with
    ⟨_, rfl, hdb, hfiles⟩ | ⟨e, _, rfl, _⟩ | ⟨digest, saved, _, _, hdb, _, rfl⟩
  · refine ⟨fun _ => ⟨hdb, hfiles⟩, ?_⟩
    intro hzero
    cases hzero
  · exact ⟨nofun, nofun⟩
  · refine ⟨?_, fun _ => ⟨digest, by rw [hdb]; rfl⟩⟩
    intro hone
    cases saved with
    | error e =>
        cases hone
    | ok u =>
        cases hone

end Chains

section OneBlock

open JsonText

/-- The first block of a chain, with one transaction. -/
def coinBlock [Platform] : Block where
  txs := [{ inputs := [{ txID := 0, outputIndex := 0 }], outputs := [{ value := 10, receiverID := 1 }] }]
  validatorNextPublicKey := (uniformKey 1).publicKey
  empty := false
  isMutable := false

theorem coinBlock_printable
    [P : Platform] [LawfulPlatform P] :
    coinBlock.Printable where
  prevBlockDigest := rfl
  merkleRoot := rfl
  transactions := by
    intro t ht
    obtain rfl := List.mem_singleton.mp ht
    exact ⟨fun _ hs => absurd hs List.not_mem_nil, fun hne => absurd rfl hne⟩
  validatorSig _ hs := absurd hs List.not_mem_nil
  publicKey := SigKey.printable_keyGen _
  validatorSigs _ hsig := absurd hsig List.not_mem_nil

/-- The block of that transaction after a digest, with a key of empty strings. -/
def linkedBlock (digest : Str) : Block where
  header := { prevBlockDigest := digest }
  txs := [{ inputs := [{ txID := 0, outputIndex := 0 }], outputs := [{ value := 10, receiverID := 1 }] }]
  validatorNextPublicKey := blankKey
  empty := false
  isMutable := false

theorem linkedBlock_printable
    {digest : Str}
    (hdigest : isUtf8 digest = true) :
    (linkedBlock digest).Printable where
  prevBlockDigest := hdigest
  merkleRoot := rfl
  transactions := by
    intro t ht
    obtain rfl := List.mem_singleton.mp ht
    exact ⟨fun _ hs => absurd hs List.not_mem_nil, fun hne => absurd rfl hne⟩
  validatorSig _ hs := absurd hs List.not_mem_nil
  publicKey := blankKey_printable
  validatorSigs _ hsig := absurd hsig List.not_mem_nil

/-- The digest of that block. -/
def linkedDigest (digest : Str) : Str :=
  Sha256.digest (Sha256.digest (digest ++ []) ++ decimal 0 ++ blankText)

theorem getDigest_linkedBlock
    (digest : Str) :
    letI := textPlatform
    (linkedBlock digest).getDigest = .ok (linkedDigest digest) := by
  let _ := textPlatform
  obtain ⟨h0, h1⟩ := blankKey_printable.full.ne_nil
  rw [Block.getDigest, if_neg (show ¬ (linkedBlock digest).isMutable = true from Bool.false_ne_true),
    if_pos ⟨h0, h1⟩]
  show (sigKeyToString blankKey).map _ = _
  rw [sigKeyToString_blankKey]
  rfl

set_option maxRecDepth 10000 in
theorem linkedDigest_ne :
    linkedDigest (linkedDigest []) ≠ linkedDigest [] := by
  decide +kernel

/-- Two blocks are added of which the second one names the digest of the first. -/
theorem linkedBlocks_are_chained :
    letI := textStorage
    ∃ s : DatabaseState, Reachable (fun s => s.db.IsEmpty) (Guarded FreshDigest DatabaseStep) s ∧
      s.db.digests = [linkedDigest [], linkedDigest (linkedDigest [])] ∧ ChainInv s.db := by
  let _ := textStorage
  have hempty : ({} : Database).Printable := fun _ hd => absurd hd List.not_mem_nil
  have hfirst : (linkedBlock []).Printable := linkedBlock_printable rfl
  obtain ⟨digest, files, hcall, hprintable, hdigest⟩ := addBlock_printable hempty hfirst rfl
    (Or.inl rfl) fun _ => none
  obtain rfl := Except.ok.inj ((getDigest_linkedBlock []).symm.trans hdigest)
  have hlast : (Database.push {} (linkedDigest []) (linkedBlock [])).Links
      (linkedBlock (linkedDigest [])) := Or.inr rfl
  have hutf8 : isUtf8 (linkedDigest []) = true := (hprintable _ (List.mem_singleton.mpr rfl)).1
  obtain ⟨digest', files', hcall', _, hdigest'⟩ := addBlock_printable hprintable
    (linkedBlock_printable hutf8) rfl hlast files
  obtain rfl := Except.ok.inj ((getDigest_linkedBlock _).symm.trans hdigest')
  have hstart : Reachable (fun s => s.db.IsEmpty) (Guarded FreshDigest DatabaseStep)
      { db := {}, files := fun _ => none } := .start ⟨rfl, rfl⟩
  have hstep : DatabaseStep { db := {}, files := fun _ => none }
      { block := linkedBlock [], opens := true } { db := _, files := files } := ⟨.ok 0, hcall⟩
  have hstep' : DatabaseStep { db := _, files := files }
      { block := linkedBlock (linkedDigest []), opens := true } { db := _, files := files' } :=
    ⟨.ok 0, hcall'⟩
  have hrun := (hstart.next_guarded hstep fun _ _ _ hmem => nomatch hmem).next_guarded hstep' (by
    intro _ d hd hmem
    obtain rfl := Except.ok.inj ((getDigest_linkedBlock _).symm.trans hd)
    exact linkedDigest_ne (List.mem_singleton.mp hmem))
  exact ⟨_, hrun, rfl, (database_chain _ hrun).1⟩

end OneBlock

end CosiCoin
