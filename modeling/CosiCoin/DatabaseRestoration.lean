import CosiCoin.BlockDatabase
import CosiCoin.BlockRestoration

/-!
# COSICOIN: saving and loading the block database

A database that was filled by calls of `addBlock` is written with the blocks'
texts and read back block by block.  The blocks come back as `restored` says, and
a database without blocks is written as null, in which "blockchain" is not found.
So the database comes back if and only if it has a block and all its blocks are
`Restorable` (`savesAndRestores_iff`).
-/

namespace CosiCoin

open LabelledRuns Database

section Loading

variable [P : StoragePlatform]

/-- What a written element is read as. -/
theorem read_toElement
    [LawfulStorage P]
    {db : Database} {digest : Str} {el : Json}
    (h : db.toElement digest = .ok el) :
    (el.at nameDigest >>= Json.getString) = .ok digest ∧
      (el.at nameBlock >>= Json.getString >>= Block.fromText) = (db.blockAt digest).restored := by
  obtain ⟨text, htext, h⟩ := bind_eq_ok h
  obtain rfl := Except.ok.inj h
  refine ⟨rfl, ?_⟩
  rw [← Block.fromText_toText htext]
  rfl

variable [LawfulStorage P]

/-- What the loop has read when it ends without an exception. -/
theorem fromElements_eq_ok
    {db db' : Database} {digests : List Str} :
    ∀ {elements : List Json} {db₀ : Database}, digests.mapM db.toElement = .ok elements →
      fromElements elements db₀ = (.ok (), db') →
      db'.digests = db₀.digests ++ digests ∧
        ∀ digest,
          (digest ∈ digests → ∃ b, (db.blockAt digest).restored = .ok b ∧
            db'.blocks.lookup digest = some b) ∧
          (digest ∉ digests → db'.blocks.lookup digest = db₀.blocks.lookup digest) := by
  induction digests with
  | nil =>
      intro elements db₀ helements hload
      obtain rfl := Except.ok.inj helements
      obtain rfl := (Prod.mk.inj hload).2
      refine ⟨(List.append_nil _).symm, ?_⟩
      intro digest
      exact ⟨fun hmem => absurd hmem List.not_mem_nil, fun _ => rfl⟩
  | cons d digests ih =>
      intro elements db₀ helements hload
      rw [List.mapM_cons] at helements
      obtain ⟨el, hel, helements⟩ := bind_eq_ok helements
      obtain ⟨rest, hrest, helements⟩ := bind_eq_ok helements
      obtain rfl := Except.ok.inj helements
      obtain ⟨hdigest, hblock⟩ := read_toElement hel
      unfold fromElements at hload
      rw [hdigest] at hload
      dsimp only at hload
      rw [hblock] at hload
      cases hback : (db.blockAt d).restored with
      | error e =>
          rw [hback] at hload
          cases hload
      | ok b =>
          rw [hback] at hload
          obtain ⟨hdigests, hblocks⟩ := ih hrest hload
          refine ⟨?_, ?_⟩
          · rw [hdigests, List.append_assoc, List.singleton_append]
          · intro digest
            obtain ⟨hold, hnew⟩ := hblocks digest
            by_cases hmem : digest ∈ digests
            · exact ⟨fun _ => hold hmem, fun hnot => absurd (List.mem_cons_of_mem _ hmem) hnot⟩
            · have hlookup := hnew hmem
              by_cases hd : digest = d
              · subst hd
                rw [AList.lookup_insert] at hlookup
                exact ⟨fun _ => ⟨b, hback, hlookup⟩, fun hnot => absurd List.mem_cons_self hnot⟩
              · rw [AList.lookup_insert_ne hd] at hlookup
                exact ⟨fun hcons => absurd (List.mem_of_ne_of_mem hd hcons) hmem, fun _ => hlookup⟩

/-- The loop ends without an exception if every block comes back. -/
theorem exists_fromElements
    {db : Database} {digests : List Str} :
    ∀ {elements : List Json} {db₀ : Database}, digests.mapM db.toElement = .ok elements →
      (∀ digest ∈ digests, ∃ b, (db.blockAt digest).restored = .ok b) →
      ∃ db', fromElements elements db₀ = (.ok (), db') := by
  induction digests with
  | nil =>
      intro elements db₀ helements _
      obtain rfl := Except.ok.inj helements
      exact ⟨db₀, rfl⟩
  | cons d digests ih =>
      intro elements db₀ helements hall
      rw [List.mapM_cons] at helements
      obtain ⟨el, hel, helements⟩ := bind_eq_ok helements
      obtain ⟨rest, hrest, helements⟩ := bind_eq_ok helements
      obtain rfl := Except.ok.inj helements
      obtain ⟨hdigest, hblock⟩ := read_toElement hel
      obtain ⟨⟨b, hb⟩, hall⟩ := List.forall_mem_cons.mp hall
      unfold fromElements
      rw [hdigest]
      dsimp only
      rw [hblock, hb]
      exact ih hrest hall

end Loading

section Chains

variable [P : StoragePlatform]

/-- The same digests in the same order, and the same block under every digest. -/
def Database.SameChain (db db' : Database) : Prop :=
  db'.digests = db.digests ∧
    ∀ digest ∈ db.digests, db'.blocks.lookup digest = db.blocks.lookup digest

/-- `save` followed by `load` or by the constructor gives the same chain. -/
def Database.SavesAndRestores (db : Database) (files : Files) (filename : Str) : Prop :=
  ∃ files', db.save files filename true = (.ok (), files') ∧
    (∀ db₀ : Database, ∃ db', db₀.load files' filename = (.ok (), db') ∧ db.SameChain db') ∧
    ∃ db', Database.new files' filename = .ok db' ∧ db.SameChain db'

/-- A call that returns normally. -/
def NormalStep (s : DatabaseState) (call : AddCall) (s' : DatabaseState) : Prop :=
  ∃ k, s.db.addBlock s.files call.block call.opens = (.ok k, s'.db, s'.files)

/-- Every digest has a block, and a database with blocks has been written. -/
structure Written (db : Database) : Prop where
  keys : ∀ digest, digest ∈ db.blocks ↔ digest ∈ db.digests
  texts : db.digests ≠ [] → ∃ elements text, db.digests.mapM db.toElement = .ok elements ∧
    dumpIndented (.obj [(nameBlockchain, .arr elements)]) = .ok text

/-- What a successful `save` has written. -/
theorem save_eq_ok
    {db : Database} {files files' : Files} {filename : Str} {opens : Bool}
    (h : db.save files filename opens = (.ok (), files')) :
    ∃ elements text, db.digests.mapM db.toElement = .ok elements ∧
      dumpIndented (chainDocument elements) = .ok text ∧
      files' = Function.update files filename (some text) := by
  obtain ⟨_, j, text, hjson, hdump, hfiles⟩ := save_eq_ok_iff.mp h
  obtain ⟨elements, helements, hj⟩ := bind_eq_ok hjson
  obtain rfl := Except.ok.inj hj
  exact ⟨elements, text, helements, hdump, hfiles⟩

/-- A chain that can be written is saved when the file opens. -/
theorem save_of_written
    {db : Database} {elements : List Json} {text : Str}
    (helements : db.digests.mapM db.toElement = .ok elements)
    (hne : elements ≠ [])
    (hdump : dumpIndented (.obj [(nameBlockchain, .arr elements)]) = .ok text)
    (files : Files) (filename : Str) :
    db.save files filename true = (.ok (), Function.update files filename (some text)) := by
  have hjson : db.toJson = .ok (.obj [(nameBlockchain, .arr elements)]) := by
    rw [Database.toJson, helements]
    exact congrArg Except.ok (if_neg hne)
  exact save_eq_ok_iff.mpr ⟨rfl, _, text, hjson, hdump, rfl⟩

theorem written_step
    (s : DatabaseState) (call : AddCall) (s' : DatabaseState)
    (h : Written s.db)
    (hstep : NormalStep s call s') :
    Written s'.db := by
  obtain ⟨k, hcall⟩ := hstep
  rcases addBlock_eq hcall with
    ⟨_, _, hdb, _⟩ | ⟨_, _, herror, _⟩ | ⟨digest, saved, _, _, hdb, hsave, hresult⟩
  · rw [hdb]
    exact h
  · cases herror
  · cases saved with
    | error e =>
        cases hresult
    | ok u =>
        obtain ⟨elements, text, helements, hdump, _⟩ := save_eq_ok hsave
        refine ⟨?_, ?_⟩
        · intro d
          rw [hdb]
          simp [Database.push, h.keys, or_comm]
        · intro hne
          rw [chainDocument,
            if_neg fun hnil => hne ((mapM_eq_nil_iff helements).mp hnil)] at hdump
          exact ⟨elements, text, helements, hdump⟩

theorem written_empty
    {db : Database}
    (h : db.IsEmpty) :
    Written db := by
  obtain ⟨hblocks, hdigests⟩ := h
  refine ⟨?_, fun hne => absurd hdigests hne⟩
  intro digest
  simp [hblocks, hdigests]

variable [LawfulStorage P]

/-- Loading the file of a saved chain runs the loop over its elements. -/
theorem load_saved
    {elements : List Json} {text : Str}
    (hdump : dumpIndented (.obj [(nameBlockchain, .arr elements)]) = .ok text)
    (files : Files) (filename : Str) (db₀ : Database) :
    db₀.load (Function.update files filename (some text)) filename =
      fromElements elements { filename := filename } := by
  have hread := LawfulStorage.read_dumpIndented hdump
  unfold Database.load
  rw [Function.update_self]
  dsimp only
  rw [hread]
  rfl

/-- The chain comes back if and only if every block does. -/
theorem restores_iff
    {db : Database} {elements : List Json}
    (hkeys : ∀ digest, digest ∈ db.blocks ↔ digest ∈ db.digests)
    (helements : db.digests.mapM db.toElement = .ok elements)
    (filename : Str) :
    (∃ db', fromElements elements { filename := filename } = (.ok (), db') ∧ db.SameChain db') ↔
      ∀ digest block, db.blocks.lookup digest = some block → block.Restorable := by
  constructor
  · rintro ⟨db', hload, _, hsame⟩ digest block hlookup
    have hmem : digest ∈ db.digests := by
      rw [← hkeys, ← AList.lookup_isSome, hlookup]
      rfl
    obtain ⟨b, hback, hb⟩ := ((fromElements_eq_ok helements hload).2 digest).1 hmem
    have hblock : db.blockAt digest = block := by
      rw [Database.blockAt, hlookup, Option.getD_some]
    rw [hsame digest hmem, hlookup] at hb
    obtain rfl := Option.some.inj hb
    rw [hblock] at hback
    exact (Block.restored_eq_ok_iff block).mp hback
  · intro hall
    have hback : ∀ digest ∈ db.digests,
        (db.blockAt digest).restored = .ok (db.blockAt digest) ∧
          db.blocks.lookup digest = some (db.blockAt digest) := by
      intro digest hmem
      rw [← hkeys, ← AList.lookup_isSome] at hmem
      obtain ⟨block, hlookup⟩ := Option.isSome_iff_exists.mp hmem
      rw [Database.blockAt, hlookup, Option.getD_some]
      exact ⟨(Block.restored_eq_ok_iff block).mpr (hall digest block hlookup), rfl⟩
    obtain ⟨db', hload⟩ := exists_fromElements helements
      fun digest hmem => ⟨_, (hback digest hmem).1⟩
    obtain ⟨hdigests, hblocks⟩ := fromElements_eq_ok helements hload
    refine ⟨db', hload, hdigests, ?_⟩
    intro digest hmem
    obtain ⟨b, hb, hlookup⟩ := (hblocks digest).1 hmem
    obtain ⟨hsame, hbefore⟩ := hback digest hmem
    obtain rfl := Except.ok.inj (hsame.symm.trans hb)
    rw [hlookup, hbefore]

/-- A database without blocks is written as null and cannot be loaded. -/
theorem not_savesAndRestores_empty
    {db : Database}
    (hdigests : db.digests = [])
    (files : Files) (filename : Str) :
    ¬ db.SavesAndRestores files filename := by
  rintro ⟨files', hsave, hload, _⟩
  obtain ⟨elements, text, helements, hdump, rfl⟩ := save_eq_ok hsave
  rw [chainDocument, if_pos ((mapM_eq_nil_iff helements).mpr hdigests)] at hdump
  obtain ⟨db', hdb', _⟩ := hload {}
  unfold Database.load at hdb'
  rw [Function.update_self] at hdb'
  dsimp only at hdb'
  rw [LawfulStorage.read_dumpIndented hdump] at hdb'
  cases (Prod.mk.inj hdb').1

/-- What a written database comes back as. -/
theorem savesAndRestores_of_written
    {db : Database}
    (h : Written db)
    (files : Files) (filename : Str) :
    db.SavesAndRestores files filename ↔
      db.digests ≠ [] ∧
        ∀ digest block, db.blocks.lookup digest = some block → block.Restorable := by
  by_cases hnil : db.digests = []
  · exact ⟨fun hback => absurd hback (not_savesAndRestores_empty hnil files filename),
      fun hback => absurd hnil hback.1⟩
  · obtain ⟨elements, text, helements, hdump⟩ := h.texts hnil
    have hne : elements ≠ [] := fun hnone => hnil ((mapM_eq_nil_iff helements).mp hnone)
    have hsave := save_of_written helements hne hdump files filename
    have hload := load_saved hdump files filename
    rw [← restores_iff h.keys helements filename]
    constructor
    · rintro ⟨files', hsaved, hloaded, _⟩
      obtain rfl := (Prod.mk.inj (hsave.symm.trans hsaved)).2
      obtain ⟨db', hdb', hsame⟩ := hloaded {}
      rw [hload] at hdb'
      exact ⟨hnil, db', hdb', hsame⟩
    · rintro ⟨_, db', hdb', hsame⟩
      refine ⟨_, hsave, fun db₀ => ⟨db', (hload db₀).trans hdb', hsame⟩, db', ?_, hsame⟩
      rw [Database.new, hload, hdb']

/--
A database filled by calls of `addBlock` that return normally comes back after
`save` if and only if it has a block and all its blocks are restorable.
-/
theorem savesAndRestores_iff
    (s : DatabaseState)
    (hrun : Reachable (fun s => s.db.IsEmpty) NormalStep s)
    (files : Files) (filename : Str) :
    s.db.SavesAndRestores files filename ↔
      s.db.digests ≠ [] ∧
        ∀ digest block, s.db.blocks.lookup digest = some block → block.Restorable := by
  have hwritten : Written s.db := hrun.invariant (fun _ h => written_empty h) written_step
  exact savesAndRestores_of_written hwritten files filename

end Chains

section OneBlock

theorem coinBlock_restorable
    [Platform] :
    coinBlock.Restorable where
  transactions := List.cons_ne_nil _ _
  restorable := by
    intro t ht
    obtain rfl := List.mem_singleton.mp ht
    constructor
    · exact List.cons_ne_nil _ _
    · exact List.cons_ne_nil _ _
    · intro s hs
      cases hs
    · exact Or.inr rfl
  validatorSig _ hs := absurd hs List.not_mem_nil
  validatorSigs _ hsig := absurd hsig List.not_mem_nil
  notEmpty := rfl
  frozen := rfl

/-- A database with one block has no other. -/
theorem eq_of_lookup_first
    {digest digest' : Str} {block block' : Block}
    (h : (Database.push {} digest block).blocks.lookup digest' = some block') :
    block' = block := by
  by_cases hd : digest' = digest
  · subst hd
    exact Option.some.inj (h.symm.trans (AList.lookup_insert _))
  · rw [Database.push, AList.lookup_insert_ne hd] at h
    cases h

/-- A block without transactions. -/
def bareBlock [Platform] : Block :=
  { coinBlock with txs := [] }

theorem bareBlock_printable
    [P : Platform] [LawfulPlatform P] :
    bareBlock.Printable :=
  { coinBlock_printable with
    transactions := fun _ ht => absurd ht List.not_mem_nil }

variable [P : StoragePlatform] [LawfulStorage P] [UnicodeStorage P]

/-- Every printable frozen block is the first of a chain. -/
theorem firstBlock_run
    {block : Block}
    (hblock : block.Printable)
    (hfrozen : block.isMutable = false) :
    ∃ s : DatabaseState, Reachable (fun s => s.db.IsEmpty) NormalStep s ∧
      ∃ digest, s.db = Database.push {} digest block := by
  obtain ⟨digest, files, hcall⟩ := addBlock_first hblock hfrozen
  refine ⟨{ db := Database.push {} digest block, files := files }, ?_, digest, rfl⟩
  have hstart : Reachable (fun s => s.db.IsEmpty) NormalStep
      { db := {}, files := fun _ => none } := .start ⟨rfl, rfl⟩
  have hstep : NormalStep { db := {}, files := fun _ => none } { block := block, opens := true }
      { db := Database.push {} digest block, files := files } := ⟨0, hcall⟩
  exact hstart.next hstep

/-- A database with one block without transactions does not come back. -/
theorem bareBlock_lost :
    ∃ s : DatabaseState, Reachable (fun s => s.db.IsEmpty) NormalStep s ∧
      s.db.digests.length = 1 ∧ ¬ s.db.SavesAndRestores (fun _ => none) [] := by
  obtain ⟨s, hrun, digest, hdb⟩ := firstBlock_run bareBlock_printable rfl
  have hwritten : Written s.db := hrun.invariant (fun _ h => written_empty h) written_step
  refine ⟨s, hrun, by rw [hdb]; rfl, ?_⟩
  rw [savesAndRestores_of_written hwritten]
  rintro ⟨_, hall⟩
  have hlookup : s.db.blocks.lookup digest = some bareBlock := by
    rw [hdb]
    exact AList.lookup_insert _
  exact (hall digest bareBlock hlookup).transactions rfl

end OneBlock

/--
A database without blocks is saved as null, which cannot be loaded, and one with
a block without transactions cannot be loaded either.
-/
theorem saved_databases_are_lost :
    letI := textStorage
    (Reachable (fun s => s.db.IsEmpty) NormalStep { db := {}, files := fun _ => none } ∧
      (∃ files, Database.save {} (fun _ => none) [] true = (.ok (), files) ∧
        ∃ e, Database.new files [] = .error e) ∧
      ¬ Database.SavesAndRestores {} (fun _ => none) []) ∧
    ∃ s : DatabaseState, Reachable (fun s => s.db.IsEmpty) NormalStep s ∧
      s.db.digests.length = 1 ∧ ¬ s.db.SavesAndRestores (fun _ => none) [] := by
  let _ := textStorage
  refine ⟨⟨.start ⟨rfl, rfl⟩, ⟨_, rfl, _, rfl⟩, not_savesAndRestores_empty rfl _ _⟩, bareBlock_lost⟩

/-- A database with one block comes back. -/
theorem coinBlock_comes_back :
    letI := textStorage
    ∃ s : DatabaseState, Reachable (fun s => s.db.IsEmpty) NormalStep s ∧
      s.db.digests.length = 1 ∧ s.db.SavesAndRestores (fun _ => none) [] := by
  let _ := textStorage
  obtain ⟨s, hrun, digest, hdb⟩ := firstBlock_run coinBlock_printable rfl
  refine ⟨s, hrun, by rw [hdb]; rfl, (savesAndRestores_iff s hrun _ _).mpr ⟨?_, ?_⟩⟩
  · rw [hdb]
    exact List.cons_ne_nil _ _
  · intro digest' block hlookup
    rw [hdb] at hlookup
    rw [eq_of_lookup_first hlookup]
    exact coinBlock_restorable

end CosiCoin
