import NanoStacks.Signer.Basic
import NanoStacks.StackerDb.RoundTrip

/-!
# What a signer writes and what it does

A state that a signer writes is read back as it was, if each answer in it is one the signer could have
given (`Sound`, `Holds.openFile`). What a request does is said once, in `Requested`: it hands out what
is remembered, or refuses, or records a new answer in memory and in the file; every statement about
runs is derived from that.
-/

namespace NanoStacks.Signer

open Chain Result StackerDb OrdMap EmbeddedSigner SignerStateStore

variable {C : Crypto} {V : Type} {vrfParses : Bytes 80 → Bool}

/-! ## Sound answers -/

/-- Some bytes are an acceptance of a block, signed by a key. -/
def Accepts (vrfParses : Bytes 80 → Bool) (key : StacksPrivateKey C) (data : List UInt8)
    (signatureHash : Bytes 32) : Prop :=
  ∃ response, SignerMessage.decode C vrfParses data = .ok (.blockResponse (.accepted response)) ∧
    response.signerSignatureHash = signatureHash ∧
    C.recover response.signature signatureHash = some (writerIdentity key)

variable {data : List UInt8}

theorem Accepts.length_le {key : StacksPrivateKey C} {signatureHash : Bytes 32}
    (h : Accepts vrfParses key data signatureHash) : data.length ≤ maxChunkSize := by
  obtain ⟨response, hdecode, -⟩ := h
  simp only [SignerMessage.decode, bind_eq_ok, ensure_eq_ok] at hdecode
  obtain ⟨_, hsize, -⟩ := hdecode
  exact hsize

/-- What is remembered is an answer of the signer's own, in its slot and under a version given away. -/
structure Sound (vrfParses : Bytes 80 → Bool) (key : StacksPrivateKey C) (slot next : UInt32)
    (block : SignedBlock) : Prop where
  slotId : block.chunk.slotId = slot
  reserved : block.chunk.slotVersion < next
  signedBy : block.chunk.SignedBy C (writerIdentity key)
  accepts : Accepts vrfParses key block.chunk.data block.signatureHash

variable {block : SignedBlock}

theorem Sound.mono {key : StacksPrivateKey C} {slot next next' : UInt32}
    (h : Sound vrfParses key slot next block) (hle : next ≤ next') :
    Sound vrfParses key slot next' block :=
  ⟨h.slotId, UInt32.lt_of_lt_of_le h.reserved hle, h.signedBy, h.accepts⟩

def AllSound (vrfParses : Bytes 80 → Bool) (key : StacksPrivateKey C) (slot next : UInt32)
    (signed : SignedBlocks) : Prop :=
  ∀ position block, signed.get position = some block → Sound vrfParses key slot next block

theorem AllSound.empty (key : StacksPrivateKey C) (slot next : UInt32) :
    AllSound vrfParses key slot next .empty := by
  intro position block h
  rw [get_empty] at h
  cases h

theorem AllSound.mono {key : StacksPrivateKey C} {slot next next' : UInt32} {signed : SignedBlocks}
    (h : AllSound vrfParses key slot next signed) (hle : next ≤ next') :
    AllSound vrfParses key slot next' signed :=
  fun position block hget => (h position block hget).mono hle

theorem AllSound.insert {key : StacksPrivateKey C} {slot next : UInt32} {signed : SignedBlocks}
    (h : AllSound vrfParses key slot next signed) {position : Position}
    (hblock : Sound vrfParses key slot next block) :
    AllSound vrfParses key slot next (signed.insert position block) := by
  intro position' block' hget
  rw [get_insert] at hget
  split_ifs at hget
  · exact Option.some.inj hget ▸ hblock
  · exact h position' block' hget

/-! ## The state file -/

/-- A file is what a signer's state is written as. -/
def Holds (key : StacksPrivateKey C) (slot next : UInt32) (signed : SignedBlocks) (file : StateFile) :
    Prop :=
  ∃ persisted, persistedState key slot next signed = .ok persisted ∧ file = some persisted

namespace SignerStateStore

theorem decodeHex_hex {n : Nat} (b : Bytes n) : decodeHex n b.hex = .ok b := by
  rw [decodeHex, utf8_hex, unhex_hexText]
  simp

variable {config : SignerConfig C} {persisted : PersistedSignerState}

theorem validateEntry_persistedBlock
    {entry : Position × SignedBlock}
    (hsound : Sound vrfParses config.privateKey persisted.writerSlot persisted.nextSlotVersion entry.2)
    {stored : PersistedSignedBlock} (hstored : persistedBlock entry = .ok stored) :
    validateEntry vrfParses persisted config stored = .ok entry := by
  obtain ⟨position, block⟩ := entry
  simp only [persistedBlock, bind_eq_ok, mapError_eq_ok, return_eq_ok] at hstored
  obtain ⟨bytes, hbytes, rfl⟩ := hstored
  obtain ⟨response, hdecode, hhash, hrecover⟩ := hsound.accepts
  have hslot : block.chunk.slotId = persisted.writerSlot := hsound.slotId
  have hverify := Chunk.verify_eq_ok_true.2 hsound.signedBy
  simp only [validateEntry, decodeHex_hex, utf8_hexEncode, unhex_hexText, okOr_some, ok_bind,
    Chunk.decode_of_encode hbytes, Except.mapError, hslot, ensure_of_true, hsound.reserved,
    hverify, hdecode, acceptedResponse, hhash, hrecover]
  rfl

theorem validateEntries_persisted {entries : List (Position × SignedBlock)}
    {stored : List PersistedSignedBlock} {signed : SignedBlocks}
    (hstored : entries.mapM persistedBlock = .ok stored)
    (hsound : ∀ entry ∈ entries, Sound vrfParses config.privateKey persisted.writerSlot
      persisted.nextSlotVersion entry.2) (hsorted : entries.Pairwise fun a b => a.1 < b.1)
    (hfresh : ∀ entry ∈ entries, signed.get entry.1 = none) :
    validateEntries vrfParses persisted config signed stored = .ok (signed.insertAll entries) := by
  induction entries generalizing stored signed with
  | nil =>
    obtain rfl : stored = [] := by simpa using hstored.symm
    rfl
  | cons entry entries ih =>
    simp only [List.mapM_cons, bind_eq_ok] at hstored
    obtain ⟨first, hfirst, rest, hrest, ⟨⟩⟩ := hstored
    rw [List.pairwise_cons] at hsorted
    have hentry := validateEntry_persistedBlock (hsound entry List.mem_cons_self) hfirst
    rw [validateEntries, hentry, ok_bind, insertEntry,
      ensure_of_true (hfresh entry List.mem_cons_self)]
    refine ih hrest (fun other hother => hsound other (List.mem_cons_of_mem _ hother)) hsorted.2 ?_
    intro other hother
    rw [get_insert, if_neg (hsorted.1 other hother).ne']
    exact hfresh other (List.mem_cons_of_mem _ hother)

end SignerStateStore

variable {key : StacksPrivateKey C} {slot next : UInt32} {signed : SignedBlocks} {file : StateFile}

theorem holds_iff : Holds key slot next signed file ↔
    ∃ stored, signed.entries.mapM persistedBlock = .ok stored ∧
      file = some ⟨signerStateVersion, (writerIdentity key).hex, slot, next, stored⟩ := by
  simp [Holds, persistedState]

theorem Holds.openFile {config : SignerConfig C} (h : Holds key slot next signed file)
    (hsound : AllSound vrfParses key slot next signed) (hkey : config.privateKey = key)
    (hslot : config.writerSlot = slot) : openFile vrfParses config file = .ok (next, signed) := by
  obtain ⟨stored, hstored, rfl⟩ := holds_iff.1 h
  have hentries : validateEntries vrfParses
      ⟨signerStateVersion, (writerIdentity key).hex, slot, next, stored⟩ config .empty stored
        = .ok (empty.insertAll signed.entries) :=
    validateEntries_persisted hstored
      (fun entry hentry => hkey ▸ hsound entry.1 entry.2 ((signed.get_eq_some).2 hentry)) signed.sorted
      (fun entry _ => get_empty entry.1)
  have hsame : empty.insertAll signed.entries = signed := by
    refine ext_get fun position => ?_
    rw [get_insertAll _ signed.sorted, get_empty, Option.or_none]
    rfl
  rw [openFile, validate, ensure_of_true rfl, ok_bind,
    ensure_of_true (by rw [hkey]), ok_bind, ensure_of_true hslot.symm, ok_bind, hentries,
    ok_bind, hsame]
  rfl

theorem Holds.slot_eq {config : SignerConfig C} (h : Holds key slot next signed file) {found : UInt32 × SignedBlocks}
    (hopen : SignerStateStore.openFile vrfParses config file = .ok found) :
    config.writerSlot = slot := by
  obtain ⟨stored, -, rfl⟩ := holds_iff.1 h
  simp only [SignerStateStore.openFile, SignerStateStore.validate, bind_eq_ok, ensure_eq_ok]
    at hopen
  obtain ⟨_, -, _, -, _, hslot, -⟩ := hopen
  exact hslot.symm

/-! ## What a request does -/

/-- Two signers are one, but for what they have signed, seen and given away. -/
structure Steady (signer signer' : EmbeddedSigner C V) : Prop where
  privateKey : signer'.privateKey = signer.privateKey
  writerSlot : signer'.writerSlot = signer.writerSlot
  conflictTimeoutSecs : signer'.conflictTimeoutSecs = signer.conflictTimeoutSecs
  state : signer'.state = signer.state

theorem Steady.refl (signer : EmbeddedSigner C V) : Steady signer signer := ⟨rfl, rfl, rfl, rfl⟩

/-- A new answer, under the version that is next. -/
structure Fresh (vrfParses : Bytes 80 → Bool) (signer : EmbeddedSigner C V)
    (signatureHash : Bytes 32) (now : Readings) (block : SignedBlock) : Prop where
  signatureHash : block.signatureHash = signatureHash
  signedAtUnix : block.signedAtUnix = now.recorded
  slotVersion : block.chunk.slotVersion = signer.nextSlotVersion
  room : signer.nextSlotVersion.toNat + 1 < 2 ^ 32
  sound : Sound vrfParses signer.privateKey signer.writerSlot (signer.nextSlotVersion + 1) block

section Requested

variable (vrfParses) (signer : EmbeddedSigner C V) (position : Position) (signatureHash : Bytes 32)
  (now : Readings) (disk : Replacement) (file : StateFile)

/-- Another block was signed at a position, and long enough ago. -/
def Expired : Prop :=
  ∃ block, signer.signed.get position = some block ∧ block.signatureHash ≠ signatureHash ∧
    signer.conflictTimeoutSecs ≤ now.checked - block.signedAtUnix

/-- Nothing stands in the way of a new answer at a position. -/
def Replaceable : Prop :=
  ∀ block, signer.signed.get position = some block → block.signatureHash = signatureHash ∨
    signer.conflictTimeoutSecs ≤ now.checked - block.signedAtUnix

/-- A file holds a new answer that is not remembered, because writing it was reported to have failed;
`signer'` is what is left of the signer then. -/
structure Unreported (signer' : EmbeddedSigner C V) (file' : StateFile) : Prop where
  disk : disk = .unsynced
  replaceable : Replaceable signer position signatureHash now
  own : ∀ block, signer'.signed.get position = some block → block.signatureHash = signatureHash
  holds : ∃ block, Fresh vrfParses signer signatureHash now block ∧
    Holds signer.privateKey signer.writerSlot (signer.nextSlotVersion + 1)
      (signer.signed.insert position block) file'

/-- The file after a state is written, if a file is kept. -/
def Written (next : UInt32) (signed : SignedBlocks) (file' : StateFile) : Prop :=
  signer.state = true ∧ Holds signer.privateKey signer.writerSlot next signed file' ∨
    signer.state = false ∧ file' = file

/-- A request hands out what is remembered, or is refused, or is answered anew. -/
inductive Requested : Outcome C V Chunk → Prop
  | repeated {block : SignedBlock} (hget : signer.signed.get position = some block)
      (hsame : block.signatureHash = signatureHash) : Requested ⟨.ok block.chunk, signer, file⟩
  | refused {error : SignerError} {signer' : EmbeddedSigner C V} {file' : StateFile}
      (hsteady : Steady signer signer') (hnext : signer'.nextSlotVersion = signer.nextSlotVersion)
      (hsigned : signer'.signed = signer.signed ∨
        Expired signer position signatureHash now ∧ signer'.signed = (signer.forget position).signed)
      (hfile : file' = file ∨
        Unreported vrfParses signer position signatureHash now disk signer' file') :
      Requested ⟨.error error, signer', file'⟩
  | recorded {block : SignedBlock} {signer' : EmbeddedSigner C V} {file' : StateFile}
      (hreplace : Replaceable signer position signatureHash now)
      (hfresh : Fresh vrfParses signer signatureHash now block) (hsteady : Steady signer signer')
      (hnext : signer'.nextSlotVersion = signer.nextSlotVersion + 1)
      (hsigned : signer'.signed = signer.signed.insert position block)
      (hfile : Written signer file (signer.nextSlotVersion + 1) (signer.signed.insert position block)
        file') : Requested ⟨.ok block.chunk, signer', file'⟩

end Requested

section Calls

variable {signer signer' : EmbeddedSigner C V} {position : Position} {signatureHash : Bytes 32}
  {now : Readings} {disk : Replacement}

theorem get_forget (signer : EmbeddedSigner C V) (position : Position) :
    (signer.forget position).signed.get position = none := by
  rw [forget, get_retain]
  simp

theorem get_of_forget {position other : Position}
    (h : (signer.forget position).signed.get other = some block) :
    signer.signed.get other = some block := by
  rw [forget, get_retain] at h
  split_ifs at h
  exact h

theorem insert_forget (signer : EmbeddedSigner C V) (position : Position) (block : SignedBlock) :
    (signer.forget position).signed.insert position block = signer.signed.insert position block := by
  refine ext_get fun other => ?_
  rw [get_insert, get_insert, forget, get_retain]
  by_cases hother : other = position
  · rw [if_pos hother, if_pos hother]
  · rw [if_neg hother, if_neg hother]
    simp [hother]

theorem save_cases (signer : EmbeddedSigner C V) (next : UInt32) (signed : SignedBlocks)
    (disk : Replacement) (file : StateFile) :
    (∃ file', signer.save next signed disk file = (.ok (), file') ∧
      Written signer file next signed file') ∨
    ∃ error file', signer.save next signed disk file = (.error error, file') ∧
      (file' = file ∨ disk = .unsynced ∧ signer.state = true ∧
        Holds signer.privateKey signer.writerSlot next signed file') := by
  unfold save
  by_cases hstate : signer.state = true
  · rw [if_pos hstate, persist]
    cases hpersisted : persistedState signer.privateKey signer.writerSlot next signed with
    | error error => exact .inr ⟨error, file, rfl, .inl rfl⟩
    | ok persisted =>
      cases disk with
      | stored => exact .inl ⟨some persisted, rfl, .inl ⟨hstate, persisted, hpersisted, rfl⟩⟩
      | failed => exact .inr ⟨.io, file, rfl, .inl rfl⟩
      | unsynced =>
        exact .inr ⟨.io, some persisted, rfl, .inr ⟨rfl, hstate, persisted, hpersisted, rfl⟩⟩
  · rw [if_neg hstate]
    exact .inl ⟨file, rfl, .inr ⟨by simpa using hstate, rfl⟩⟩

theorem toNat_succ {version : UInt32} (hroom : version.toNat + 1 < 2 ^ 32) :
    (version + 1).toNat = version.toNat + 1 := by
  rw [UInt32.toNat_add, UInt32.toNat_one, Nat.mod_eq_of_lt hroom]

theorem lt_succ {version : UInt32} (hroom : version.toNat + 1 < 2 ^ 32) : version < version + 1 := by
  rw [UInt32.lt_iff_toNat_lt, toNat_succ hroom]
  omega

/-- Advancing keeps what is signed; it changes the version and the file together, or neither is seen to
change. -/
theorem advanceNextSlotVersion_cases (signer : EmbeddedSigner C V) (version : UInt32)
    (disk : Replacement) (file : StateFile) :
    (∃ answer file', signer.advanceNextSlotVersion version disk file = ⟨answer, signer, file'⟩ ∧
      (answer = .ok () → version ≤ signer.nextSlotVersion) ∧
      (file' = file ∨ disk = .unsynced ∧ signer.state = true ∧ signer.nextSlotVersion < version ∧
        Holds signer.privateKey signer.writerSlot version signer.signed file')) ∨
    ∃ file', signer.advanceNextSlotVersion version disk file
        = ⟨.ok (), { signer with nextSlotVersion := version }, file'⟩ ∧
      signer.nextSlotVersion < version ∧ Written signer file version signer.signed file' := by
  unfold advanceNextSlotVersion
  by_cases hbehind : version ≤ signer.nextSlotVersion
  · rw [if_pos hbehind]
    exact .inl ⟨.ok (), file, rfl, fun _ => hbehind, .inl rfl⟩
  · rw [if_neg hbehind]
    have hlt : signer.nextSlotVersion < version := UInt32.not_le.1 hbehind
    obtain ⟨file', hsave, hwritten⟩ | ⟨error, file', hsave, hfile⟩ :=
      save_cases signer version signer.signed disk file
    · rw [hsave]
      exact .inr ⟨file', rfl, hlt, hwritten⟩
    · rw [hsave]
      refine .inl ⟨_, file', rfl, nofun, hfile.imp id ?_⟩
      rintro ⟨hdisk, hstate, hholds⟩
      exact ⟨hdisk, hstate, hlt, hholds⟩

theorem fresh_of_sign {chunk : Chunk}
    (haccepts : Accepts vrfParses signer.privateKey data signatureHash)
    (hroom : signer.nextSlotVersion.toNat + 1 < 2 ^ 32)
    (hsign : (Chunk.new signer.writerSlot signer.nextSlotVersion data).sign signer.privateKey = .ok chunk) :
    Fresh vrfParses signer signatureHash now ⟨signatureHash, chunk, now.recorded⟩ := by
  have hsigned := Chunk.SignedBy.of_sign hsign
  obtain ⟨-, rfl⟩ := Chunk.sign_eq_ok.1 hsign
  exact ⟨rfl, rfl, rfl, hroom, rfl, lt_succ hroom, hsigned, haccepts⟩

/-- Recording is a request's last step; `signer'` is the signer as the steps before have left it. -/
theorem record_requested (hsteady : Steady signer signer')
    (hnext : signer'.nextSlotVersion = signer.nextSlotVersion)
    (hsigned : signer'.signed = signer.signed ∨
      Expired signer position signatureHash now ∧ signer'.signed = (signer.forget position).signed)
    (hreplace : Replaceable signer position signatureHash now)
    (hown : ∀ block, signer'.signed.get position = some block → block.signatureHash = signatureHash)
    (haccepts : Accepts vrfParses signer.privateKey data signatureHash) :
    Requested vrfParses signer position signatureHash now disk file
      (signer'.record position signatureHash data signer'.nextSlotVersion now.recorded disk file) := by
  have hinsert : ∀ block, signer'.signed.insert position block = signer.signed.insert position block := by
    intro block
    rcases hsigned with hsigned | ⟨-, hsigned⟩
    · rw [hsigned]
    · rw [hsigned, insert_forget]
  unfold record
  by_cases hroom : signer'.nextSlotVersion.toNat + 1 < 2 ^ 32
  · rw [if_pos hroom]
    cases hsign : (Chunk.new signer'.writerSlot signer'.nextSlotVersion data).sign signer'.privateKey with
    | error error => exact .refused hsteady hnext hsigned (.inl rfl)
    | ok chunk =>
      rw [hsteady.writerSlot, hnext, hsteady.privateKey] at hsign
      rw [hnext] at hroom
      have hfresh : Fresh vrfParses signer signatureHash now ⟨signatureHash, chunk, now.recorded⟩ :=
        fresh_of_sign haccepts hroom hsign
      simp only [hinsert, hnext]
      obtain ⟨file', hsave, hwritten⟩ | ⟨error, file', hsave, hfile⟩ := save_cases signer'
        (signer.nextSlotVersion + 1) (signer.signed.insert position ⟨signatureHash, chunk, now.recorded⟩)
        disk file
      · rw [hsave]
        rw [Written, hsteady.privateKey, hsteady.writerSlot, hsteady.state] at hwritten
        exact .recorded hreplace hfresh
          ⟨hsteady.privateKey, hsteady.writerSlot, hsteady.conflictTimeoutSecs, hsteady.state⟩ rfl rfl hwritten
      · rw [hsave]
        rw [hsteady.privateKey, hsteady.writerSlot, hsteady.state] at hfile
        refine .refused hsteady hnext hsigned (hfile.imp id ?_)
        rintro ⟨hdisk, hstate, hholds⟩
        exact ⟨hdisk, hreplace, hown, _, hfresh, hholds⟩
  · rw [if_neg hroom]
    exact .refused hsteady hnext hsigned (.inl rfl)

theorem accepts_withExtendTimestamp {timestamp : Nat} (htimestamp : timestamp < 2 ^ 64)
    (hencode : (SignerMessage.blockResponse (.accepted (BlockAcceptance.withExtendTimestamp signatureHash
      (key.sign signatureHash) timestamp))).encode = .ok data) :
    Accepts vrfParses key data signatureHash :=
  ⟨_, SignerMessage.decode_accepted ⟨htimestamp, htimestamp⟩ hencode, rfl,
    key.recover_sign signatureHash⟩

variable [ProposalValidator V] {proposal : BlockProposal}

theorem signNew_requested (hsteady : Steady signer signer')
    (hnext : signer'.nextSlotVersion = signer.nextSlotVersion)
    (hsigned : signer'.signed = signer.signed ∨
      Expired signer (positionOf proposal) (signatureHashOf C proposal) now ∧
        signer'.signed = (signer.forget (positionOf proposal)).signed)
    (hreplace : Replaceable signer (positionOf proposal) (signatureHashOf C proposal) now)
    (hnone : signer'.signed.get (positionOf proposal) = none) :
    Requested vrfParses signer (positionOf proposal) (signatureHashOf C proposal) now disk
      file (signer'.signNew proposal now disk file) := by
  have hown : ∀ block, signer'.signed.get (positionOf proposal) = some block →
      block.signatureHash = signatureHashOf C proposal := by
    intro block hblock
    rw [hnone] at hblock
    cases hblock
  have hsteady' : ∀ validator tenuresSeen,
      Steady signer { signer' with validator := validator, tenuresSeen := tenuresSeen } := fun _ _ =>
    ⟨hsteady.privateKey, hsteady.writerSlot, hsteady.conflictTimeoutSecs, hsteady.state⟩
  unfold signNew
  split
  · exact .refused (hsteady' _ signer'.tenuresSeen) hnext hsigned (.inl rfl)
  · rename_i validator _
    dsimp only [extendTimestamp]
    split
    · exact .refused (hsteady' validator _) hnext hsigned (.inl rfl)
    · rename_i data hencode
      rw [hsteady.privateKey] at hencode
      exact record_requested (hsteady' validator _) hnext hsigned hreplace hown
        (accepts_withExtendTimestamp (by omega) hencode)

theorem sign_requested (signer : EmbeddedSigner C V) (proposal : BlockProposal) (now : Readings)
    (disk : Replacement) (file : StateFile) :
    Requested vrfParses signer (positionOf proposal) (signatureHashOf C proposal) now disk
      file (signer.sign proposal now disk file) := by
  unfold sign
  cases hget : signer.signed.get (positionOf proposal) with
  | none =>
    refine signNew_requested (Steady.refl signer) rfl (.inl rfl) ?_ hget
    intro block hblock
    rw [hget] at hblock
    cases hblock
  | some block =>
    dsimp only
    by_cases hsame : block.signatureHash = signatureHashOf C proposal
    · rw [if_pos hsame]
      exact .repeated hget hsame
    · rw [if_neg hsame]
      by_cases hrecent : now.checked - block.signedAtUnix < signer.conflictTimeoutSecs
      · rw [if_pos hrecent]
        exact .refused (Steady.refl signer) rfl (.inl rfl) (.inl rfl)
      · rw [if_neg hrecent]
        have hexpired : signer.conflictTimeoutSecs ≤ now.checked - block.signedAtUnix := by omega
        refine signNew_requested ⟨rfl, rfl, rfl, rfl⟩ rfl (.inr ⟨⟨block, hget, hsame, hexpired⟩, rfl⟩) ?_
          (get_forget signer (positionOf proposal))
        intro other hother
        rw [hget] at hother
        exact .inr (Option.some.inj hother ▸ hexpired)

theorem signAfterSlotVersion_requested (remoteSlotVersion : UInt32) (disk : Replacement)
    (file : StateFile)
    (hsound : AllSound vrfParses signer.privateKey signer.writerSlot signer.nextSlotVersion
      signer.signed) :
    Requested vrfParses signer (positionOf proposal) (signatureHashOf C proposal) now disk
      file (signer.signAfterSlotVersion proposal remoteSlotVersion now disk file) := by
  unfold signAfterSlotVersion
  cases hget : signer.signed.get (positionOf proposal) with
  | none => exact sign_requested signer proposal now disk file
  | some block =>
    dsimp only
    by_cases hsame : block.signatureHash = signatureHashOf C proposal
    · rw [if_neg (not_not.2 hsame)]
      by_cases hahead : remoteSlotVersion < block.chunk.slotVersion
      · rw [if_pos hahead]
        exact .repeated hget hsame
      · rw [if_neg hahead]
        have hown : ∀ other, signer.signed.get (positionOf proposal) = some other →
            other.signatureHash = signatureHashOf C proposal := by
          intro other hother
          rw [hget] at hother
          exact Option.some.inj hother ▸ hsame
        exact record_requested (Steady.refl signer) rfl (.inl rfl) (fun other hother => .inl (hown other hother))
          hown (hsame ▸ (hsound _ _ hget).accepts)
    · rw [if_pos hsame]
      by_cases hrecent : now.looked - block.signedAtUnix < signer.conflictTimeoutSecs
      · rw [if_pos hrecent]
        exact .refused (Steady.refl signer) rfl (.inl rfl) (.inl rfl)
      · rw [if_neg hrecent]
        exact sign_requested signer proposal now disk file

end Calls

end NanoStacks.Signer
