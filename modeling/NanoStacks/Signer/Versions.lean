import NanoStacks.Signer.Journal
import NanoStacks.Chain.Plain

/-!
# Slot versions over whole runs

A signer that is always opened with one key and in one slot, on a file that is replaced atomically,
never gives a version away twice. The invariant is `Journaled`: the file is a state the signer wrote, the
process remembers nothing that is not in it, and every chunk ever written to it is below the next
version of both.
-/

namespace NanoStacks.Signer

open Chain Result StackerDb EmbeddedSigner World List Option SignerStateStore

variable {C : Crypto} {V : Type} {vrfParses : Bytes 80 → Bool}

/-! ## The chunks of a file -/

def storedChunks : StateFile → List Chunk
  | none => []
  | some persisted => persisted.signed.filterMap fun entry =>
    (unhex (utf8 entry.chunk)).bind fun bytes => (Chunk.decode bytes).toOption

def Remembers (signed : SignedBlocks) (chunk : Chunk) : Prop :=
  ∃ position block, signed.get position = some block ∧ block.chunk = chunk

section File

variable {key : StacksPrivateKey C} {slot next : UInt32} {signed : SignedBlocks} {file : StateFile}

theorem stored_of_persistedBlock {entry : Position × SignedBlock} {stored : PersistedSignedBlock}
    (h : persistedBlock entry = .ok stored) :
    ((unhex (utf8 stored.chunk)).bind fun bytes => (Chunk.decode bytes).toOption)
      = some entry.2.chunk := by
  simp only [persistedBlock, bind_eq_ok, mapError_eq_ok] at h
  obtain ⟨bytes, hbytes, ⟨⟩⟩ := h
  rw [utf8_hexEncode, unhex_hexText, bind_some, Chunk.decode_of_encode hbytes]
  rfl

theorem Holds.mem_storedChunks (h : Holds key slot next signed file) {chunk : Chunk} :
    chunk ∈ storedChunks file ↔ Remembers signed chunk := by
  obtain ⟨blocks, hblocks, rfl⟩ := holds_iff.1 h
  simp only [storedChunks, mem_filterMap]
  constructor
  · rintro ⟨stored, hstored, hchunk⟩
    obtain ⟨entry, hentry, hblock⟩ := mem_of_mapM_ok hblocks hstored
    rw [stored_of_persistedBlock hblock] at hchunk
    exact ⟨entry.1, entry.2, (signed.get_eq_some).2 hentry, some.inj hchunk⟩
  · rintro ⟨position, block, hget, rfl⟩
    obtain ⟨stored, hstored, hblock⟩ := exists_of_mapM_ok hblocks ((signed.get_eq_some).1 hget)
    exact ⟨stored, hstored, stored_of_persistedBlock hblock⟩

end File

/-! ## What a call does to memory and file -/

/-- A call that is not a rebind, on a file that is replaced atomically. -/
def Call.Plain (disk : Replacement) : Call V → Prop
  | .setWriterSlot _ => False
  | _ => disk ≠ .unsynced

variable (vrfParses) in
/-- Nothing new, or a higher version, or a new answer; the last two are in the file as well. -/
inductive Effect (signer : EmbeddedSigner C V) (file : StateFile) (signer' : EmbeddedSigner C V)
    (file' : StateFile) : Prop
  | rested (hsteady : Steady signer signer') (hnext : signer'.nextSlotVersion = signer.nextSlotVersion)
      (hsub : ∀ position block, signer'.signed.get position = some block →
        signer.signed.get position = some block) (hfile : file' = file)
  | advanced (hsteady : Steady signer signer')
      (hnext : signer.nextSlotVersion < signer'.nextSlotVersion) (hsigned : signer'.signed = signer.signed)
      (hfile : Holds signer.privateKey signer.writerSlot signer'.nextSlotVersion signer'.signed file')
  | recorded {position : Position} {block : SignedBlock} {signatureHash : Bytes 32} {now : Readings}
      (hfresh : Fresh vrfParses signer signatureHash now block) (hsteady : Steady signer signer')
      (hnext : signer'.nextSlotVersion = signer.nextSlotVersion + 1)
      (hsigned : signer'.signed = signer.signed.insert position block)
      (hfile : Holds signer.privateKey signer.writerSlot signer'.nextSlotVersion signer'.signed file')

section Effects

variable {signer : EmbeddedSigner C V} {file : StateFile}

theorem Written.holds {next : UInt32} {signed : SignedBlocks} {file' : StateFile}
    (h : Written signer file next signed file') (hstate : signer.state = true) :
    Holds signer.privateKey signer.writerSlot next signed file' := by
  rcases h with ⟨-, hholds⟩ | ⟨hfalse, -⟩
  · exact hholds
  · rw [hstate] at hfalse
    cases hfalse

variable {now : Readings} {disk : Replacement} {outcome : Outcome C V Chunk}

theorem Requested.effect {position : Position} {signatureHash : Bytes 32}
    (h : Requested vrfParses signer position signatureHash now disk file outcome)
    (hstate : signer.state = true) (hdisk : disk ≠ .unsynced) :
    Effect vrfParses signer file outcome.signer outcome.file := by
  cases h with
  | repeated hget hsame => exact .rested (Steady.refl signer) rfl (fun _ _ h => h) rfl
  | refused hsteady hnext hsigned hfile =>
    have hfile := hfile.resolve_right fun hunreported => hdisk hunreported.disk
    refine .rested hsteady hnext (fun other block hget => ?_) hfile
    rcases hsigned with hsigned | ⟨-, hsigned⟩
    · exact hsigned ▸ hget
    · exact get_of_forget (hsigned ▸ hget)
  | recorded hreplace hfresh hsteady hnext hsigned hfile =>
    refine .recorded hfresh hsteady hnext hsigned ?_
    rw [hnext, hsigned]
    exact hfile.holds hstate

theorem advance_effect (version : UInt32) (hstate : signer.state = true) (hdisk : disk ≠ .unsynced) :
    Effect vrfParses signer file (signer.advanceNextSlotVersion version disk file).signer
      (signer.advanceNextSlotVersion version disk file).file := by
  obtain ⟨answer, file', hcall, -, hfile⟩ | ⟨file', hcall, hlt, hwritten⟩ :=
    advanceNextSlotVersion_cases signer version disk file
  · rw [hcall]
    exact .rested (Steady.refl signer) rfl (fun _ _ h => h)
      (hfile.resolve_right fun hunsynced => hdisk hunsynced.1)
  · rw [hcall]
    exact .advanced ⟨rfl, rfl, rfl, rfl⟩ hlt rfl (hwritten.holds hstate)

theorem Requested.remembers {position : Position} {signatureHash : Bytes 32}
    (h : Requested vrfParses signer position signatureHash now disk file outcome) {chunk : Chunk}
    (hanswer : outcome.answer = .ok chunk) : Remembers outcome.signer.signed chunk := by
  cases h with
  | repeated hget hsame => exact ⟨position, _, hget, Except.ok.inj hanswer⟩
  | refused hsteady hnext hsigned hfile => cases hanswer
  | recorded hreplace hfresh hsteady hnext hsigned hfile =>
    refine ⟨position, _, ?_, Except.ok.inj hanswer⟩
    rw [hsigned, OrdMap.get_insert, if_pos rfl]

theorem map_some_eq_ok {ε α : Type} {x : Except ε α} {a : α} : x.map some = .ok (some a) ↔ x = .ok a := by
  cases x <;> simp [Except.map]

theorem map_none_ne_ok {ε α β : Type} {x : Except ε α} {b : β} :
    ¬x.map (fun _ => (none : Option β)) = .ok (some b) := by
  cases x <;> simp [Except.map]

variable [ProposalValidator V]

theorem call_effect {call : Call V} (hplain : call.Plain disk) (now : Readings)
    (hstate : signer.state = true)
    (hsound : AllSound vrfParses signer.privateKey signer.writerSlot signer.nextSlotVersion
      signer.signed) :
    Effect vrfParses signer file (signer.call call now disk file).signer
      (signer.call call now disk file).file := by
  cases call with
  | sign proposal => exact (sign_requested signer proposal now disk file).effect hstate hplain
  | signAfterSlotVersion proposal remote =>
    exact (signAfterSlotVersion_requested remote disk file hsound).effect hstate hplain
  | advanceNextSlotVersion version => exact advance_effect version hstate hplain
  | setWriterSlot slot => exact hplain.elim
  | validate proposal => exact .rested ⟨rfl, rfl, rfl, rfl⟩ rfl (fun _ _ h => h) rfl
  | validatorMut validator => exact .rested ⟨rfl, rfl, rfl, rfl⟩ rfl (fun _ _ h => h) rfl

theorem call_remembers {call : Call V} {chunk : Chunk}
    (hsound : AllSound vrfParses signer.privateKey signer.writerSlot signer.nextSlotVersion
      signer.signed) (hanswer : (signer.call call now disk file).answer = .ok (some chunk)) :
    Remembers (signer.call call now disk file).signer.signed chunk := by
  cases call with
  | sign proposal =>
    have hrequested : Requested vrfParses signer _ _ now disk file _ :=
      sign_requested signer proposal now disk file
    exact hrequested.remembers (map_some_eq_ok.1 hanswer)
  | signAfterSlotVersion proposal remote =>
    exact (signAfterSlotVersion_requested remote disk file hsound).remembers (map_some_eq_ok.1 hanswer)
  | advanceNextSlotVersion version => exact absurd hanswer map_none_ne_ok
  | setWriterSlot slot => cases hanswer
  | validate proposal => exact absurd hanswer map_none_ne_ok
  | validatorMut validator => cases hanswer

end Effects

/-! ## The invariant -/

section Invariant

variable (vrfParses) (key : StacksPrivateKey C) (slot : UInt32) (issued : Chunk → Prop)

/-- There is no file yet, or it is a state the signer wrote, with a version beyond every one issued. -/
def Filed (file : StateFile) : Prop :=
  (file = none ∧ ∀ chunk, ¬issued chunk) ∨
    ∃ next signed, Holds key slot next signed file ∧ AllSound vrfParses key slot next signed ∧
      ∀ chunk, issued chunk → chunk.slotVersion < next

/-- A process remembers no more than its file, and its next version is beyond every one issued. -/
structure Process (file : StateFile) (signer : EmbeddedSigner C V) : Prop where
  privateKey : signer.privateKey = key
  writerSlot : signer.writerSlot = slot
  state : signer.state = true
  sound : AllSound vrfParses key slot signer.nextSlotVersion signer.signed
  stored : ∀ chunk, Remembers signer.signed chunk → chunk ∈ storedChunks file
  ahead : ∀ chunk, issued chunk → chunk.slotVersion < signer.nextSlotVersion

structure Journaled (world : World C V) : Prop where
  filed : Filed vrfParses key slot issued world.file
  stored : ∀ chunk ∈ storedChunks world.file, issued chunk
  process : ∀ signer, world.signer = some signer →
    Process vrfParses key slot issued world.file signer
  distinct : ∀ chunk chunk', issued chunk → issued chunk' → chunk.slotVersion = chunk'.slotVersion →
    chunk = chunk'

end Invariant

section Step

variable {key : StacksPrivateKey C} {slot : UInt32} {issued : Chunk → Prop} {file file' : StateFile}
  {signer signer' : EmbeddedSigner C V}

/-- A chunk that is in a file and was not in the file before. -/
def New (file file' : StateFile) (chunk : Chunk) : Prop :=
  chunk ∈ storedChunks file' ∧ chunk ∉ storedChunks file

variable (vrfParses key slot issued file) in
/-- The invariant after a step, with the new chunks of the file among those issued, each of a version
past all before it. -/
def Extends (world : World C V) : Prop :=
  Journaled vrfParses key slot (fun chunk => issued chunk ∨ New file world.file chunk) world ∧
    ∀ chunk, New file world.file chunk → ∀ chunk', issued chunk' → chunk'.slotVersion < chunk.slotVersion

theorem Journaled.start : Journaled vrfParses key slot (fun _ => False) (World.start : World C V) :=
  ⟨.inl ⟨rfl, fun _ => id⟩, fun _ h => absurd h not_mem_nil, nofun, nofun⟩

variable {world : World C V}

theorem Journaled.stopped (h : Journaled vrfParses key slot issued world) :
    Journaled vrfParses key slot issued (⟨none, world.file⟩ : World C V) :=
  ⟨h.filed, h.stored, nofun, h.distinct⟩

theorem issued_or_new (h : ∀ chunk, ¬New file file' chunk) :
    (fun chunk => issued chunk ∨ New file file' chunk) = issued := by
  funext chunk
  simp [h chunk]

theorem Journaled.unchanged (h : Journaled vrfParses key slot issued world) (hfile : world.file = file) :
    Extends vrfParses key slot issued file world := by
  have hnew : ∀ chunk, ¬New file world.file chunk := by
    rintro chunk ⟨hnow, hbefore⟩
    exact hbefore (hfile ▸ hnow)
  rw [Extends, issued_or_new hnew]
  exact ⟨h, fun chunk hchunk => absurd hchunk (hnew chunk)⟩

section

variable (h : Journaled vrfParses key slot issued ⟨some signer, file⟩)

include h

/-- A file that was written: the chunk that is new in it, if there is one, has the version that was next. -/
theorem Journaled.wrote
    (new : Chunk) (hsteady : Steady signer signer') (hlt : signer.nextSlotVersion < signer'.nextSlotVersion)
    (hsound : AllSound vrfParses key slot signer'.nextSlotVersion signer'.signed)
    (hfile : Holds signer.privateKey signer.writerSlot signer'.nextSlotVersion signer'.signed file')
    (hversion : new.slotVersion = signer.nextSlotVersion)
    (hsigned : ∀ chunk, Remembers signer'.signed chunk → Remembers signer.signed chunk ∨ chunk = new) :
    Extends vrfParses key slot issued file ⟨some signer', file'⟩ := by
  have hprocess := h.process signer rfl
  rw [hprocess.privateKey, hprocess.writerSlot] at hfile
  have hnew : ∀ chunk, New file file' chunk → chunk = new := by
    rintro chunk ⟨hnow, hbefore⟩
    refine (hsigned chunk (hfile.mem_storedChunks.1 hnow)).resolve_left fun hold => ?_
    exact hbefore (hprocess.stored chunk hold)
  have hbeyond : ∀ chunk, New file file' chunk → ∀ chunk', issued chunk' →
      chunk'.slotVersion < chunk.slotVersion := by
    intro chunk hchunk chunk' hissued
    rw [hnew chunk hchunk, hversion]
    exact hprocess.ahead chunk' hissued
  have hahead : ∀ chunk, issued chunk ∨ New file file' chunk →
      chunk.slotVersion < signer'.nextSlotVersion := by
    rintro chunk (hissued | hchunk)
    · exact UInt32.lt_trans (hprocess.ahead chunk hissued) hlt
    · rw [hnew chunk hchunk, hversion]
      exact hlt
  refine ⟨⟨.inr ⟨_, _, hfile, hsound, hahead⟩, fun chunk hchunk => ?_, ?_, ?_⟩, hbeyond⟩
  · by_cases hbefore : chunk ∈ storedChunks file
    · exact .inl (h.stored chunk hbefore)
    · exact .inr ⟨hchunk, hbefore⟩
  · rintro _ ⟨⟩
    exact ⟨hsteady.privateKey.trans hprocess.privateKey, hsteady.writerSlot.trans hprocess.writerSlot,
      hsteady.state.trans hprocess.state, hsound, fun chunk hchunk => hfile.mem_storedChunks.2 hchunk,
      hahead⟩
  · rintro chunk chunk' (hissued | hchunk) (hissued' | hchunk') heq
    · exact h.distinct chunk chunk' hissued hissued' heq
    · exact absurd heq (UInt32.ne_of_lt (hbeyond chunk' hchunk' chunk hissued))
    · exact absurd heq.symm (UInt32.ne_of_lt (hbeyond chunk hchunk chunk' hissued'))
    · rw [hnew chunk hchunk, hnew chunk' hchunk']

theorem Journaled.effect (heffect : Effect vrfParses signer file signer' file') :
    Extends vrfParses key slot issued file ⟨some signer', file'⟩ := by
  have hprocess := h.process signer rfl
  cases heffect with
  | rested hsteady hnext hsub hfile =>
    subst hfile
    suffices hjournaled : Journaled vrfParses key slot issued ⟨some signer', file'⟩ from
      hjournaled.unchanged rfl
    refine ⟨h.filed, h.stored, ?_, h.distinct⟩
    rintro _ ⟨⟩
    refine ⟨hsteady.privateKey.trans hprocess.privateKey, hsteady.writerSlot.trans hprocess.writerSlot,
      hsteady.state.trans hprocess.state, ?_, ?_, ?_⟩
    · intro position block hget
      rw [hnext]
      exact hprocess.sound position block (hsub position block hget)
    · rintro chunk ⟨position, block, hget, hchunk⟩
      exact hprocess.stored chunk ⟨position, block, hsub position block hget, hchunk⟩
    · rw [hnext]
      exact hprocess.ahead
  | advanced hsteady hnext hsigned hfile =>
    refine h.wrote ⟨0, signer.nextSlotVersion, .zero 65, []⟩ hsteady hnext ?_ hfile rfl ?_
    · rw [hsigned]
      exact hprocess.sound.mono (UInt32.le_of_lt hnext)
    · rw [hsigned]
      exact fun _ => .inl
  | @recorded position block signatureHash now hfresh hsteady hnext hsigned hfile =>
    have hlt : signer.nextSlotVersion < signer'.nextSlotVersion := by
      rw [hnext]
      exact lt_succ hfresh.room
    refine h.wrote block.chunk hsteady hlt ?_ hfile hfresh.slotVersion ?_
    · rw [hsigned]
      refine (hprocess.sound.mono (UInt32.le_of_lt hlt)).insert ?_
      rw [hnext, ← hprocess.privateKey, ← hprocess.writerSlot]
      exact hfresh.sound
    · rintro _ ⟨other, found, hget, rfl⟩
      rw [hsigned, OrdMap.get_insert] at hget
      split_ifs at hget
      · exact .inr (by rw [some.inj hget])
      · exact .inl ⟨other, found, hget, rfl⟩

end

theorem Filed.openFile (h : Filed vrfParses key slot issued file) {config : SignerConfig C}
    (hkey : config.privateKey = key) (hslot : config.writerSlot = slot) :
    ∃ next signed, openFile vrfParses config file = .ok (next, signed) ∧
      AllSound vrfParses key slot next signed ∧
      (∀ chunk, Remembers signed chunk → chunk ∈ storedChunks file) ∧
      ∀ chunk, issued chunk → chunk.slotVersion < next := by
  rcases h with ⟨rfl, hnone⟩ | ⟨next, signed, hholds, hsound, hahead⟩
  · refine ⟨config.nextSlotVersion, .empty, rfl, AllSound.empty key slot _, ?_,
      fun chunk hissued => absurd hissued (hnone chunk)⟩
    rintro chunk ⟨position, block, hget, -⟩
    rw [OrdMap.get_empty] at hget
    cases hget
  · exact ⟨next, signed, hholds.openFile hsound hkey hslot, hsound,
      fun chunk hchunk => hholds.mem_storedChunks.2 hchunk, hahead⟩

variable (key slot) in
/-- One key and one slot, and a file that is replaced atomically. -/
def Step.Plain : Step C V → Prop
  | .call made _ disk | .lost made _ disk => made.Plain disk
  | .crash => True
  | .fromStateFile config _ => config.privateKey = key ∧ config.writerSlot = slot

variable [ProposalValidator V]

variable (vrfParses) in
/-- A step writes a chunk to the file. -/
def Wrote (world : World C V) (step : Step C V) (chunk : Chunk) : Prop :=
  New world.file (world.step vrfParses step).file chunk

theorem Process.effect (h : Process vrfParses key slot issued file signer) {call : Call V}
    {disk : Replacement} (hplain : call.Plain disk) (now : Readings) :
    Effect vrfParses signer file (signer.call call now disk file).signer
      (signer.call call now disk file).file := by
  refine call_effect hplain now h.state ?_
  rw [h.privateKey, h.writerSlot]
  exact h.sound

theorem step_opened {config : SignerConfig C} {validator : V} {next : UInt32} {signed : SignedBlocks}
    (hopen : openFile vrfParses config file = .ok (next, signed)) :
    step vrfParses ⟨none, file⟩ (.fromStateFile config validator)
      = ⟨some ⟨config.privateKey, validator, config.writerSlot, next, config.conflictTimeoutSecs, signed,
          true, .empty⟩, file⟩ := by
  simp only [step, fromStateFile, hopen, ok_bind]
  rfl

theorem Journaled.step (h : Journaled vrfParses key slot issued world) {step : Step C V}
    (hplain : step.Plain key slot) :
    Extends vrfParses key slot issued world.file (world.step vrfParses step) := by
  obtain ⟨running, file⟩ := world
  cases step with
  | call call now disk =>
    cases running with
    | none => exact h.unchanged rfl
    | some signer => exact h.effect ((h.process signer rfl).effect hplain now)
  | lost call now disk =>
    cases running with
    | none => exact h.unchanged rfl
    | some signer =>
      obtain ⟨hjournaled, hbeyond⟩ := h.effect ((h.process signer rfl).effect hplain now)
      exact ⟨hjournaled.stopped, hbeyond⟩
  | crash => exact h.stopped.unchanged rfl
  | fromStateFile config validator =>
    cases running with
    | some signer => exact h.unchanged rfl
    | none =>
      obtain ⟨hkey, hslot⟩ := hplain
      obtain ⟨next, signed, hopen, hsound, hstored, hahead⟩ := h.filed.openFile hkey hslot
      rw [step_opened hopen]
      refine Journaled.unchanged ⟨h.filed, h.stored, ?_, h.distinct⟩ rfl
      rintro _ ⟨⟩
      exact ⟨hkey, hslot, rfl, hsound, hstored, hahead⟩

end Step

/-! ## The version of an answer -/

section Version

variable {signer : EmbeddedSigner C V} {now : Readings} {disk : Replacement} {file : StateFile}
  {chunk : Chunk} {proposal : BlockProposal}

theorem record_slotVersion {position : Position} {signatureHash : Bytes 32} {data : List UInt8}
    {version : UInt32} {time : Nat}
    (h : (signer.record position signatureHash data version time disk file).answer = .ok chunk) :
    chunk.slotVersion = version := by
  unfold record at h
  split_ifs at h
  split at h
  · cases h
  · rename_i signed hsign
    dsimp only at h
    split at h
    · cases h
    · obtain rfl := Except.ok.inj h
      obtain ⟨-, rfl⟩ := Chunk.sign_eq_ok.1 hsign
      rfl

variable {remote : UInt32}

theorem lt_of_reconcileWriterSlot {slots : List SlotMetadata}
    (h : (signer.reconcileWriterSlot slots disk file).answer = .ok remote) :
    remote < (signer.reconcileWriterSlot slots disk file).signer.nextSlotVersion := by
  unfold reconcileWriterSlot at h ⊢
  dsimp only at h ⊢
  split_ifs at h ⊢ with hroom
  generalize ((slots.find? (·.slotId == signer.writerSlot)).map (·.slotVersion)).getD 0 = version
    at h hroom ⊢
  obtain ⟨answer, file', hcall, hbehind, -⟩ | ⟨file', hcall, hlt, -⟩ :=
    advanceNextSlotVersion_cases signer (version + 1) disk file
  · rw [hcall] at h ⊢
    cases answer with
    | error error => cases h
    | ok done =>
      obtain rfl : version = remote := Except.ok.inj h
      exact UInt32.lt_of_lt_of_le (lt_succ hroom) (hbehind rfl)
  · rw [hcall] at h ⊢
    obtain rfl : version = remote := Except.ok.inj h
    exact lt_succ hroom

theorem reconcile_effect (slots : List SlotMetadata) (hstate : signer.state = true)
    (hdisk : disk ≠ .unsynced) :
    Effect vrfParses signer file (signer.reconcileWriterSlot slots disk file).signer
      (signer.reconcileWriterSlot slots disk file).file := by
  unfold reconcileWriterSlot
  dsimp only
  split_ifs
  · exact advance_effect _ hstate hdisk
  · exact .rested (Steady.refl signer) rfl (fun _ _ h => h) rfl

theorem Effect.next_le {signer signer' : EmbeddedSigner C V} {file file' : StateFile}
    (h : Effect vrfParses signer file signer' file') :
    signer.nextSlotVersion ≤ signer'.nextSlotVersion := by
  cases h with
  | rested hsteady hnext hsub hfile => exact hnext ▸ UInt32.le_refl _
  | advanced hsteady hnext hsigned hfile => exact UInt32.le_of_lt hnext
  | recorded hfresh hsteady hnext hsigned hfile => exact hnext ▸ UInt32.le_of_lt (lt_succ hfresh.room)

variable [ProposalValidator V]

theorem signNew_slotVersion (h : (signer.signNew proposal now disk file).answer = .ok chunk) :
    chunk.slotVersion = signer.nextSlotVersion := by
  unfold signNew at h
  split at h
  · cases h
  · dsimp only [extendTimestamp] at h
    split at h
    · cases h
    · exact record_slotVersion h

theorem lt_of_signAfterSlotVersion (hnext : remote < signer.nextSlotVersion)
    (h : (signer.signAfterSlotVersion proposal remote now disk file).answer = .ok chunk) :
    remote < chunk.slotVersion := by
  unfold signAfterSlotVersion at h
  cases hget : signer.signed.get (positionOf proposal) with
  | none =>
    rw [hget] at h
    dsimp only at h
    rw [sign, hget] at h
    rw [signNew_slotVersion h]
    exact hnext
  | some block =>
    rw [hget] at h
    dsimp only at h
    by_cases hsame : block.signatureHash = signatureHashOf C proposal
    · rw [if_neg (not_not.2 hsame)] at h
      by_cases hahead : remote < block.chunk.slotVersion
      · rw [if_pos hahead] at h
        exact Except.ok.inj h ▸ hahead
      · rw [if_neg hahead] at h
        rw [record_slotVersion h]
        exact hnext
    · rw [if_pos hsame] at h
      split_ifs at h
      rw [sign, hget] at h
      dsimp only at h
      rw [if_neg hsame] at h
      split_ifs at h
      rw [signNew_slotVersion h]
      exact hnext

end Version

/-! ## Runs -/

section Run

variable [ProposalValidator V]

variable (vrfParses) in
/-- A chunk is written by some step of a run. -/
def Issued (steps : List (Step C V)) (chunk : Chunk) : Prop :=
  ∃ before step after, steps = before ++ step :: after ∧
    Wrote vrfParses (World.start.run vrfParses before) step chunk

theorem Issued.append {steps : List (Step C V)} {chunk : Chunk} (h : Issued vrfParses steps chunk)
    (later : List (Step C V)) : Issued vrfParses (steps ++ later) chunk := by
  obtain ⟨before, step, after, rfl, hwrote⟩ := h
  exact ⟨before, step, after ++ later, by simp, hwrote⟩

theorem issued_concat (steps : List (Step C V)) (step : Step C V) :
    Issued vrfParses (steps ++ [step]) = fun chunk => Issued vrfParses steps chunk ∨
      Wrote vrfParses (World.start.run vrfParses steps) step chunk := by
  funext chunk
  refine propext ⟨?_, ?_⟩
  · rintro ⟨before, found, after, heq, hwrote⟩
    rcases eq_nil_or_concat after with rfl | ⟨init, last, rfl⟩
    · obtain ⟨rfl, hlast⟩ := append_inj' heq rfl
      obtain rfl := (cons.inj hlast).1
      exact .inr hwrote
    · rw [concat_eq_append, ← cons_append, ← append_assoc] at heq
      obtain ⟨rfl, -⟩ := append_inj' heq rfl
      exact .inl ⟨before, found, init, rfl, hwrote⟩
  · rintro (hissued | hwrote)
    · exact hissued.append [step]
    · exact ⟨steps, step, [], rfl, hwrote⟩

theorem run_concat (world : World C V) (steps : List (Step C V)) (step : Step C V) :
    world.run vrfParses (steps ++ [step]) = (world.run vrfParses steps).step vrfParses step :=
  Runs.run_append _ _ _ _

variable {key : StacksPrivateKey C} {slot : UInt32}

theorem journaled_run {steps : List (Step C V)} (hplain : ∀ step ∈ steps, step.Plain key slot) :
    Journaled vrfParses key slot (Issued vrfParses steps) (World.start.run vrfParses steps) := by
  induction steps using reverseRecOn with
  | nil =>
    have hnone : Issued vrfParses ([] : List (Step C V)) = fun _ => False := by
      funext chunk
      refine propext ⟨?_, False.elim⟩
      rintro ⟨before, step, after, heq, -⟩
      simp at heq
    rw [hnone]
    exact Journaled.start
  | append_singleton steps step ih =>
    rw [issued_concat, run_concat]
    exact ((ih fun other hother => hplain other (mem_append_left _ hother)).step
      (hplain step (by simp))).1

/-- A step that does not start a process. -/
def Step.Continues : Step C V → Prop
  | .fromStateFile _ _ => False
  | _ => True

theorem lt_next_run {remote : UInt32} {between : List (Step C V)} {world : World C V}
    {issued : Chunk → Prop} (h : Journaled vrfParses key slot issued world)
    (hplain : ∀ step ∈ between, step.Plain key slot ∧ step.Continues)
    (hnext : ∀ signer, world.signer = some signer → remote < signer.nextSlotVersion) :
    (∃ issued', Journaled vrfParses key slot issued' (world.run vrfParses between)) ∧
      ∀ signer, (world.run vrfParses between).signer = some signer →
        remote < signer.nextSlotVersion := by
  induction between generalizing world issued with
  | nil => exact ⟨⟨issued, h⟩, hnext⟩
  | cons step between ih =>
    obtain ⟨hstep, hcontinues⟩ := hplain step mem_cons_self
    refine ih (h.step hstep).1 (fun other hother => hplain other (mem_cons_of_mem _ hother)) ?_
    obtain ⟨running, file⟩ := world
    cases step with
    | call call now disk =>
      cases running with
      | none => exact nofun
      | some signer =>
        rintro _ ⟨⟩
        exact UInt32.lt_of_lt_of_le (hnext signer rfl) ((h.process signer rfl).effect hstep now).next_le
    | lost call now disk => cases running <;> exact nofun
    | crash => exact nofun
    | fromStateFile config validator => exact hcontinues.elim

/-- Over every run of a signer that is opened with one key in one slot, on a file that is replaced
atomically, with a crash wherever one likes:

* a state that is written is the one a signer opened on the file starts from, and the file can always be
  opened;
* the chunks that are written have versions that increase, and so no version stands for two chunks,
  written or handed out;
* once the version of a replica has been reconciled with, the same process hands out nothing under that
  version or a lower one to it. -/
theorem signer_journal_sound (vrfParses : Bytes 80 → Bool) (key : StacksPrivateKey C)
    (slot : UInt32) (steps : List (Step C V)) (hplain : ∀ step ∈ steps, step.Plain key slot) :
    let world := World.start.run vrfParses steps
    (∀ signer, world.signer = some signer → ∀ (call : Call V) now disk (config : SignerConfig C),
      call.Plain disk → config.privateKey = key → config.writerSlot = slot →
      let outcome := signer.call call now disk world.file
      outcome.file ≠ world.file →
      openFile vrfParses config outcome.file
        = .ok (outcome.signer.nextSlotVersion, outcome.signer.signed)) ∧
    (∀ config : SignerConfig C, config.privateKey = key → config.writerSlot = slot →
      ∃ found, openFile vrfParses config world.file = .ok found) ∧
    (∀ before first between second after chunk chunk',
      steps = before ++ first :: between ++ second :: after →
      Wrote vrfParses (World.start.run vrfParses before) first chunk →
      Wrote vrfParses (World.start.run vrfParses (before ++ first :: between)) second chunk' →
      chunk.slotVersion < chunk'.slotVersion) ∧
    (∀ before call now disk after chunk, steps = before ++ .call call now disk :: after →
      (World.start.run vrfParses before).answer call now disk = some (.ok (some chunk)) →
      Issued vrfParses steps chunk) ∧
    (∀ chunk chunk', Issued vrfParses steps chunk → Issued vrfParses steps chunk' →
      chunk.slotVersion = chunk'.slotVersion → chunk = chunk') ∧
    ∀ signer, world.signer = some signer → ∀ slots disk remote, disk ≠ .unsynced →
      let reconciled := signer.reconcileWriterSlot slots disk world.file
      reconciled.answer = .ok remote →
      ∀ between proposal now disk' chunk, (∀ step ∈ between, step.Plain key slot ∧ step.Continues) →
        ((⟨some reconciled.signer, reconciled.file⟩ : World C V).run vrfParses between).answer
          (.signAfterSlotVersion proposal remote) now disk' = some (.ok (some chunk)) →
        remote < chunk.slotVersion := by
  intro world
  have hjournaled : Journaled vrfParses key slot (Issued vrfParses steps) world :=
    journaled_run hplain
  refine ⟨?_, ?_, ?_, ?_, hjournaled.distinct, ?_⟩
  · intro signer hrunning call now disk config hcall hkey hslot outcome hchanged
    have hprocess := hjournaled.process signer hrunning
    have heffect := hprocess.effect hcall now
    have hworld : world = ⟨some signer, world.file⟩ := by rw [← hrunning]
    have hafter := ((hworld ▸ hjournaled).effect heffect).1.process _ rfl
    have hholds : Holds signer.privateKey signer.writerSlot outcome.signer.nextSlotVersion
        outcome.signer.signed outcome.file := by
      cases heffect with
      | rested hsteady hnext hsub hfile => exact absurd hfile hchanged
      | advanced hsteady hnext hsigned hfile => exact hfile
      | recorded hfresh hsteady hnext hsigned hfile => exact hfile
    rw [hprocess.privateKey, hprocess.writerSlot] at hholds
    exact hholds.openFile hafter.sound hkey hslot
  · intro config hkey hslot
    obtain ⟨next, signed, hopen, -⟩ := hjournaled.filed.openFile hkey hslot
    exact ⟨(next, signed), hopen⟩
  · intro before first between second after chunk chunk' heq hfirst hsecond
    have hprior : ∀ step ∈ before ++ first :: between, step.Plain key slot := by
      intro step hstep
      exact hplain step (heq ▸ mem_append_left _ hstep)
    have hnow : second.Plain key slot := hplain second (by simp [heq])
    exact ((journaled_run hprior).step hnow).2 chunk' hsecond chunk ⟨before, first, between, rfl, hfirst⟩
  · intro before call now disk after chunk heq hanswer
    have hprior : ∀ step ∈ before ++ [Step.call call now disk], step.Plain key slot := by
      intro step hstep
      refine hplain step ?_
      rw [heq]
      simp only [mem_append, mem_cons, not_mem_nil, or_false] at hstep ⊢
      tauto
    have hbefore : Journaled vrfParses key slot _ _ :=
      journaled_run fun step hstep => hprior step (mem_append_left _ hstep)
    have hafter : Journaled vrfParses key slot _ _ := journaled_run hprior
    have hissued : Issued vrfParses (before ++ [Step.call call now disk]) chunk := by
      cases hrunning : (start.run vrfParses before).signer with
      | none => simp [answer, hrunning] at hanswer
      | some signer =>
        rw [answer, hrunning] at hanswer
        have hprocess := hbefore.process signer hrunning
        have hremembers := call_remembers (hprocess.privateKey ▸ hprocess.writerSlot ▸ hprocess.sound)
          (some.inj hanswer)
        rw [run_concat, step, hrunning] at hafter
        exact hafter.stored _ ((hafter.process _ rfl).stored _ hremembers)
    have hsteps : steps = (before ++ [Step.call call now disk]) ++ after := by simp [heq]
    rw [hsteps]
    exact hissued.append after
  · intro signer hrunning slots disk remote hdisk reconciled hreconciled between proposal now disk' chunk
      hbetween hanswer
    have hprocess := hjournaled.process signer hrunning
    have hworld : world = ⟨some signer, world.file⟩ := by rw [← hrunning]
    have hafter := ((hworld ▸ hjournaled).effect (reconcile_effect slots hprocess.state hdisk)).1
    have hstart : ∀ found, some (signer.reconcileWriterSlot slots disk world.file).signer = some found →
        remote < found.nextSlotVersion := by
      rintro _ ⟨⟩
      exact lt_of_reconcileWriterSlot hreconciled
    obtain ⟨-, hnext⟩ := lt_next_run hafter hbetween hstart
    simp only [answer, map_eq_some_iff] at hanswer
    obtain ⟨last, hlast, hchunk⟩ := hanswer
    exact lt_of_signAfterSlotVersion (hnext last hlast) (map_some_eq_ok.1 hchunk)

end Run

/-! ## A signer that is restarted -/

/-- A validator that has no objections. -/
inductive Lenient
  | lenient

instance : ProposalValidator Lenient := ⟨fun validator _ => (.ok (), validator)⟩

def plainKey : StacksPrivateKey plainCrypto := ⟨Bytes.zero 32, Bytes.zero 20, fun _ => rfl⟩

def plainConfig (slot next : UInt32) : SignerConfig plainCrypto := ⟨plainKey, slot, next, 30⟩

/-- A block at a height of a tenure, told from others there by its time. -/
def plainProposal (height time : Nat) : BlockProposal :=
  ⟨⟨{ (plainBlock (Bytes.zero 32) height 1 0 []).header with timestamp := time }, []⟩, 5, 0, []⟩

def atTime (time : Nat) : Readings := ⟨time, time, time, time⟩

/-- The steps of a signer in slot 7 that is opened, signs a block and goes on. -/
def signedRun (next : UInt32) (rest : List (Step plainCrypto Lenient)) : List (Step plainCrypto Lenient) :=
  .fromStateFile (plainConfig 7 next) .lenient :: .call (.sign (plainProposal 1 0)) (atTime 10) .stored :: rest

/-- It crashes, is opened again and signs another. -/
def crashedRun : List (Step plainCrypto Lenient) :=
  signedRun 3 [.crash, .fromStateFile (plainConfig 7 1) .lenient,
    .call (.sign (plainProposal 2 0)) (atTime 20) .stored]

/-- The answer to a proposal after some steps. -/
def asked (steps : List (Step plainCrypto Lenient)) (proposal : BlockProposal) (time : Nat) :
    Option (Except SignerError (Option Chunk)) :=
  (start.run (fun _ => true) steps).answer (.sign proposal) (atTime time) .stored

/-- The chunk an answer hands out. -/
def chunkOf (answer : Option (Except SignerError (Option Chunk))) : Option Chunk :=
  answer.bind fun result => result.toOption.join

theorem eq_of_chunkOf {answer : Option (Except SignerError (Option Chunk))} {chunk : Chunk}
    (h : chunkOf answer = some chunk) : answer = some (.ok (some chunk)) := by
  obtain _ | _ | _ | found := answer
  · cases h
  · cases h
  · cases h
  · obtain rfl : found = chunk := some.inj h
    rfl

/-- A request in the run is answered with a chunk under a version. -/
def Hands (taken : Nat) (proposal : BlockProposal) (time : Nat) (version : UInt32) : Prop :=
  ∃ chunk, asked (crashedRun.take taken) proposal time = some (.ok (some chunk)) ∧
    chunk.slotVersion = version ∧ Issued (fun _ => true) crashedRun chunk

def openedOnce : EmbeddedSigner plainCrypto Lenient :=
  ⟨plainKey, .lenient, 7, 3, 30, .empty, true, .empty⟩

theorem signer_journal_sound_crashed :
    (∀ step ∈ crashedRun, step.Plain plainKey 7) ∧
      Hands 1 (plainProposal 1 0) 10 3 ∧ Hands 4 (plainProposal 2 0) 20 4 ∧
      ∃ found, openFile (fun _ => true) (plainConfig 7 1)
        (World.start.run (fun _ => true) crashedRun).file = .ok found := by
  have hplain : ∀ step ∈ crashedRun, step.Plain plainKey 7 := by
    simp [crashedRun, signedRun, Step.Plain, Call.Plain, plainConfig]
  have hjournal := signer_journal_sound (fun _ => true) plainKey 7 crashedRun hplain
  have hhands : ∀ {taken proposal time version}, crashedRun = crashedRun.take taken ++
        .call (.sign proposal) (atTime time) .stored :: crashedRun.drop (taken + 1) →
      (chunkOf (asked (crashedRun.take taken) proposal time)).map (·.slotVersion) = some version →
      Hands taken proposal time version := by
    intro taken proposal time version hsplit hversion
    obtain ⟨chunk, hchunk, rfl⟩ := map_eq_some_iff.1 hversion
    have hanswer := eq_of_chunkOf hchunk
    exact ⟨chunk, hanswer, rfl, hjournal.2.2.2.1 _ _ _ _ _ chunk hsplit hanswer⟩
  refine ⟨hplain, hhands rfl (by decide +kernel), hhands rfl ?_,
    hjournal.2.1 (plainConfig 7 1) rfl rfl⟩
  -- what the restart finds in the file is known without reading it
  have hworld : start.run (fun _ => true) (crashedRun.take 1) = ⟨some openedOnce, none⟩ := rfl
  have hopens := (signer_journal_sound (fun _ => true) plainKey 7 (crashedRun.take 1)
    fun step hstep => hplain step (mem_of_mem_take hstep)).1
  rw [hworld] at hopens
  have hopen := hopens openedOnce rfl (.sign (plainProposal 1 0)) (atTime 10) .stored
    (plainConfig 7 1) nofun rfl rfl (ne_none_iff_isSome.2 (by decide +kernel))
  dsimp only at hopen
  rw [asked, show crashedRun.take 4 = crashedRun.take 1 ++ [_] ++ [_] ++ [_] from rfl, run_concat,
    run_concat, run_concat, hworld, show step _ (step _ ⟨some openedOnce, _⟩ (.call _ _ _)) .crash
      = ⟨none, (openedOnce.call _ _ _ _).file⟩ from rfl, step_opened hopen]
  decide +kernel

end NanoStacks.Signer
