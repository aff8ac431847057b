import NanoStacks.Signer.Versions

/-!
# How long a signed block is protected

A block that is signed stands in the way of another at its position for as long as the configuration
says, counted from when its chunk was recorded. It does so over calls that fail, writes that are not
reported, crashes and openings (`Upright`, `Guarded`), but a rebind to another slot forgets everything.
-/

namespace NanoStacks.Signer

open Chain StackerDb OrdMap EmbeddedSigner World List Option

variable {C : Crypto} {V : Type} {vrfParses : Bytes 80 → Bool}

/-! ## What stands in the way -/

/-- A block is remembered at a position, recorded no earlier than a time. -/
def Keeps (position : Position) (signatureHash : Bytes 32) (since : Nat) (signed : SignedBlocks) : Prop :=
  ∃ block, signed.get position = some block ∧ block.signatureHash = signatureHash ∧
    since ≤ block.signedAtUnix

variable (vrfParses) in
/-- A block stands so in a file the signer wrote. -/
def FileKeeps (key : StacksPrivateKey C) (position : Position) (signatureHash : Bytes 32) (since : Nat)
    (file : StateFile) : Prop :=
  ∃ slot next signed, Holds key slot next signed file ∧ AllSound vrfParses key slot next signed ∧
    Keeps position signatureHash since signed

/-- Nothing is remembered that was not recorded by now. -/
def Dated (now : Nat) (signed : SignedBlocks) : Prop :=
  ∀ position block, signed.get position = some block → block.signedAtUnix ≤ now

section Maps

variable {position other : Position} {signatureHash : Bytes 32} {since now now' : Nat}
  {signed : SignedBlocks} {block : SignedBlock}

theorem Dated.mono (h : Dated now signed) (hle : now ≤ now') : Dated now' signed :=
  fun position block hget => (h position block hget).trans hle

theorem Dated.insert (h : Dated now signed) (hblock : block.signedAtUnix ≤ now) :
    Dated now (signed.insert position block) := by
  intro other found hget
  rw [get_insert] at hget
  split_ifs at hget
  · exact some.inj hget ▸ hblock
  · exact h other found hget

theorem keeps_insert_self (hhash : block.signatureHash = signatureHash) (hsince : since ≤ block.signedAtUnix) :
    Keeps position signatureHash since (signed.insert position block) :=
  ⟨block, by rw [get_insert, if_pos rfl], hhash, hsince⟩

theorem Keeps.insert_of_ne (h : Keeps position signatureHash since signed) (hne : position ≠ other) :
    Keeps position signatureHash since (signed.insert other block) := by
  obtain ⟨found, hget, hfound⟩ := h
  exact ⟨found, by rw [get_insert, if_neg hne, hget], hfound⟩

theorem Keeps.forget_of_ne {signer : EmbeddedSigner C V} (h : Keeps position signatureHash since signer.signed)
    (hne : position ≠ other) : Keeps position signatureHash since (signer.forget other).signed := by
  obtain ⟨found, hget, hfound⟩ := h
  refine ⟨found, ?_, hfound⟩
  rw [forget, get_retain, hget]
  simp [hne]

end Maps

/-! ## The invariants -/

section Invariants

variable (vrfParses) (key : StacksPrivateKey C) (timeout : Nat) (journals : Bool) (now : Nat)

/-- A running signer: it remembers sound answers, and keeps in its file what it remembers. -/
structure Running (file : StateFile) (signer : EmbeddedSigner C V) : Prop where
  privateKey : signer.privateKey = key
  timeout : signer.conflictTimeoutSecs = timeout
  state : signer.state = journals
  sound : AllSound vrfParses key signer.writerSlot signer.nextSlotVersion signer.signed
  dated : Dated now signer.signed
  backed : journals = true → ∀ position block, signer.signed.get position = some block →
    FileKeeps vrfParses key position block.signatureHash block.signedAtUnix file

/-- There is no file, or it is a sound state the signer wrote by now. -/
def Filing (file : StateFile) : Prop :=
  file = none ∨ ∃ slot next signed, Holds key slot next signed file ∧
    AllSound vrfParses key slot next signed ∧ Dated now signed

structure Upright (world : World C V) : Prop where
  running : ∀ signer, world.signer = some signer →
    Running vrfParses key timeout journals now world.file signer
  filing : Filing vrfParses key now world.file

/-- A block is remembered by the process and, if there is to be another, by the file. -/
structure Guarded (position : Position) (signatureHash : Bytes 32) (since : Nat) (world : World C V) :
    Prop where
  running : ∀ signer, world.signer = some signer → Keeps position signatureHash since signer.signed
  file : journals = true → FileKeeps vrfParses key position signatureHash since world.file

end Invariants

/-! ## Requests -/

section Requests

variable {key : StacksPrivateKey C} {timeout : Nat} {journals : Bool} {before : Nat} {file : StateFile}
  {signer : EmbeddedSigner C V} {position : Position} {signatureHash : Bytes 32} {now : Readings}
  {disk : Replacement} {outcome : Outcome C V Chunk}

theorem Filing.mono {now : Nat} (h : Filing vrfParses key before file) (hle : before ≤ now) :
    Filing vrfParses key now file := by
  rcases h with hnone | ⟨slot, next, signed, hholds, hsound, hdated⟩
  · exact .inl hnone
  · exact .inr ⟨slot, next, signed, hholds, hsound, hdated.mono hle⟩

section

variable (h : Running vrfParses key timeout journals before file signer)

include h

theorem Running.mono {now : Nat} (hle : before ≤ now) :
    Running vrfParses key timeout journals now file signer :=
  ⟨h.privateKey, h.timeout, h.state, h.sound, h.dated.mono hle, h.backed⟩

theorem Running.moved {now : Nat} {file' : StateFile} {signer' : EmbeddedSigner C V}
    (hsteady : Steady signer signer')
    (hsound : AllSound vrfParses key signer.writerSlot signer'.nextSlotVersion signer'.signed)
    (hdated : Dated now signer'.signed)
    (hbacked : journals = true → ∀ position block, signer'.signed.get position = some block →
      FileKeeps vrfParses key position block.signatureHash block.signedAtUnix file') :
    Running vrfParses key timeout journals now file' signer' :=
  ⟨hsteady.privateKey.trans h.privateKey, hsteady.conflictTimeoutSecs.trans h.timeout,
    hsteady.state.trans h.state, hsteady.writerSlot ▸ hsound, hdated, hbacked⟩

variable {block : SignedBlock}

theorem Running.fresh (hnow : before ≤ now.recorded)
    (hfresh : Fresh vrfParses signer signatureHash now block) :
    AllSound vrfParses key signer.writerSlot (signer.nextSlotVersion + 1)
        (signer.signed.insert position block) ∧
      Dated now.recorded (signer.signed.insert position block) := by
  have hle := UInt32.le_of_lt (lt_succ hfresh.room)
  refine ⟨(h.sound.mono hle).insert (h.privateKey ▸ hfresh.sound), (h.dated.mono hnow).insert ?_⟩
  exact hfresh.signedAtUnix ▸ Nat.le_refl _

end

theorem Requested.upright (h : Requested vrfParses signer position signatureHash now disk file outcome)
    (hrunning : Running vrfParses key timeout journals before file signer)
    (hfiling : Filing vrfParses key before file) (hnow : before ≤ now.recorded) :
    Running vrfParses key timeout journals now.recorded outcome.file outcome.signer ∧
      Filing vrfParses key now.recorded outcome.file := by
  cases h with
  | repeated hget hsame => exact ⟨hrunning.mono hnow, hfiling.mono hnow⟩
  | @refused error signer' file' hsteady hnext hsigned hfile =>
    have hsub : ∀ other block, signer'.signed.get other = some block →
        signer.signed.get other = some block := by
      intro other block hget
      rcases hsigned with hsigned | ⟨-, hsigned⟩
      · exact hsigned ▸ hget
      · exact get_of_forget (hsigned ▸ hget)
    have hsound : AllSound vrfParses key signer.writerSlot signer'.nextSlotVersion signer'.signed :=
      fun other block hget => hnext ▸ hrunning.sound other block (hsub other block hget)
    have hdated : Dated now.recorded signer'.signed :=
      fun other block hget => (hrunning.dated other block (hsub other block hget)).trans hnow
    rcases hfile with rfl | hunreported
    · exact ⟨hrunning.moved hsteady hsound hdated fun hstate other block hget =>
        hrunning.backed hstate other block (hsub other block hget), hfiling.mono hnow⟩
    · obtain ⟨block, hfresh, hholds⟩ := hunreported.holds
      rw [hrunning.privateKey] at hholds
      obtain ⟨hsound', hdated'⟩ := hrunning.fresh hnow hfresh
      refine ⟨hrunning.moved hsteady hsound hdated fun _ other found hget => ?_,
        .inr ⟨_, _, _, hholds, hsound', hdated'⟩⟩
      refine ⟨_, _, _, hholds, hsound', ?_⟩
      by_cases hother : other = position
      · subst hother
        refine keeps_insert_self (hfresh.signatureHash.trans (hunreported.own found hget).symm) ?_
        exact hfresh.signedAtUnix ▸ hdated other found hget
      · exact Keeps.insert_of_ne ⟨found, hsub other found hget, rfl, Nat.le_refl _⟩ hother
  | @recorded block signer' file' hreplace hfresh hsteady hnext hsigned hfile =>
    obtain ⟨hsound, hdated⟩ := hrunning.fresh hnow hfresh
    rw [Written, hrunning.privateKey, hrunning.state] at hfile
    rw [← hnext, ← hsigned] at hsound hfile
    rw [← hsigned] at hdated
    refine ⟨hrunning.moved hsteady hsound hdated fun hstate other found hget => ?_, ?_⟩
    · obtain ⟨-, hholds⟩ := hfile.resolve_right fun hfalse => by simp [hstate] at hfalse
      exact ⟨_, _, _, hholds, hsound, found, hget, rfl, Nat.le_refl _⟩
    · rcases hfile with ⟨-, hholds⟩ | ⟨-, rfl⟩
      · exact .inr ⟨_, _, _, hholds, hsound, hdated⟩
      · exact hfiling.mono hnow

variable {place : Position} {blockHash : Bytes 32} {since : Nat}

section

variable (h : Keeps place blockHash since signer.signed)

include h

theorem Keeps.not_expired {block : SignedBlock} (hsince : since ≤ now.checked)
    (hcheck : now.checked < since + signer.conflictTimeoutSecs)
    (hget : signer.signed.get place = some block) :
    ¬signer.conflictTimeoutSecs ≤ now.checked - block.signedAtUnix := by
  obtain ⟨found, hfound, -, hle⟩ := h
  obtain rfl : found = block := some.inj (hfound.symm.trans hget)
  omega

theorem Keeps.hash_eq {block : SignedBlock} (hget : signer.signed.get place = some block) :
    block.signatureHash = blockHash := by
  obtain ⟨found, hfound, hhash, -⟩ := h
  obtain rfl : found = block := some.inj (hfound.symm.trans hget)
  exact hhash

theorem Keeps.insert_fresh {block : SignedBlock} (hsince : since ≤ now.checked) (hmono : now.checked ≤ now.recorded)
    (hcheck : position = place → signatureHash ≠ blockHash →
      now.checked < since + signer.conflictTimeoutSecs)
    (hreplace : Replaceable signer position signatureHash now)
    (hfresh : Fresh vrfParses signer signatureHash now block) :
    Keeps place blockHash since (signer.signed.insert position block) := by
  by_cases hposition : place = position
  · subst hposition
    have hkeeps := h
    obtain ⟨found, hget, -⟩ := h
    have hsame : signatureHash = blockHash := by
      by_contra hne
      rcases hreplace found hget with hhash | hexpired
      · exact hne (hhash.symm.trans (hkeeps.hash_eq hget))
      · exact hkeeps.not_expired hsince (hcheck rfl hne) hget hexpired
    refine keeps_insert_self (hfresh.signatureHash.trans hsame) ?_
    rw [hfresh.signedAtUnix]
    omega
  · exact h.insert_of_ne hposition

end

section

variable (h : Requested vrfParses signer position signatureHash now disk file outcome)

include h

theorem Requested.guarded (hrunning : Running vrfParses key timeout journals before file signer)
    (hkeeps : Keeps place blockHash since signer.signed)
    (hfile : journals = true → FileKeeps vrfParses key place blockHash since file)
    (hnow : before ≤ now.recorded) (hsince : since ≤ now.checked)
    (hmono : now.checked ≤ now.recorded)
    (hcheck : position = place → signatureHash ≠ blockHash →
      now.checked < since + signer.conflictTimeoutSecs) :
    Keeps place blockHash since outcome.signer.signed ∧
      (journals = true → FileKeeps vrfParses key place blockHash since outcome.file) := by
  cases h with
  | repeated hget hsame => exact ⟨hkeeps, hfile⟩
  | @refused error signer' file' hsteady hnext hsigned hnewFile =>
    refine ⟨?_, ?_⟩
    · rcases hsigned with hsigned | ⟨⟨block, hget, hne, hexpired⟩, hsigned⟩
      · exact hsigned ▸ hkeeps
      · rw [hsigned]
        by_cases hposition : place = position
        · subst hposition
          have hhash : signatureHash ≠ blockHash := fun heq => hne ((hkeeps.hash_eq hget).trans heq.symm)
          exact absurd hexpired (hkeeps.not_expired hsince (hcheck rfl hhash) hget)
        · exact hkeeps.forget_of_ne hposition
    · rcases hnewFile with rfl | hunreported
      · exact hfile
      · intro _
        obtain ⟨block, hfresh, hholds⟩ := hunreported.holds
        exact ⟨_, _, _, hrunning.privateKey ▸ hholds, (hrunning.fresh hnow hfresh).1,
          hkeeps.insert_fresh hsince hmono hcheck hunreported.replaceable hfresh⟩
  | @recorded block signer' file' hreplace hfresh hsteady hnext hsigned hnewFile =>
    have hinsert := hkeeps.insert_fresh hsince hmono hcheck hreplace hfresh
    refine ⟨hsigned ▸ hinsert, fun hjournal => ?_⟩
    exact ⟨_, _, _, hrunning.privateKey ▸ hnewFile.holds (hrunning.state.trans hjournal),
      (hrunning.fresh hnow hfresh).1, hinsert⟩

variable {chunk : Chunk}

theorem Requested.not_ok (hkeeps : Keeps position blockHash since signer.signed)
    (hne : signatureHash ≠ blockHash) (hsince : since ≤ now.checked)
    (hcheck : now.checked < since + signer.conflictTimeoutSecs) : outcome.answer ≠ .ok chunk := by
  intro hanswer
  cases h with
  | repeated hget hsame => exact hne (hsame.symm.trans (hkeeps.hash_eq hget))
  | refused hsteady hnext hsigned hfile => cases hanswer
  | recorded hreplace hfresh hsteady hnext hsigned hfile =>
    have hkept := hkeeps
    obtain ⟨found, hget, -⟩ := hkeeps
    rcases hreplace found hget with hhash | hexpired
    · exact hne (hhash.symm.trans (hkept.hash_eq hget))
    · exact hkept.not_expired hsince hcheck hget hexpired

theorem Requested.held (hanswer : outcome.answer = .ok chunk) :
    ∃ signedAt, outcome.signer.signed.get position = some ⟨signatureHash, chunk, signedAt⟩ ∧
      (signedAt = now.recorded ∨
        signer.signed.get position = some ⟨signatureHash, chunk, signedAt⟩) := by
  cases h with
  | @repeated block hget hsame =>
    obtain rfl := Except.ok.inj hanswer
    obtain ⟨_, chunk, signedAt⟩ := block
    obtain rfl := hsame
    exact ⟨signedAt, hget, .inr hget⟩
  | refused hsteady hnext hsigned hfile => cases hanswer
  | @recorded block signer' file' hreplace hfresh hsteady hnext hsigned hfile =>
    obtain rfl := Except.ok.inj hanswer
    obtain ⟨_, chunk, signedAt⟩ := block
    obtain rfl : _ = signatureHash := hfresh.signatureHash
    refine ⟨signedAt, ?_, .inl hfresh.signedAtUnix⟩
    rw [hsigned, get_insert, if_pos rfl]

end

end Requests

/-! ## Calls -/

section Calls

variable {key : StacksPrivateKey C} {timeout : Nat} {journals : Bool} {before : Nat} {file : StateFile}
  {signer : EmbeddedSigner C V} {now : Readings} {disk : Replacement}

section

variable (h : Running vrfParses key timeout journals before file signer)

include h

theorem Running.learnt (validator : V) :
    Running vrfParses key timeout journals before file { signer with validator } :=
  ⟨h.privateKey, h.timeout, h.state, h.sound, h.dated, h.backed⟩

theorem Running.holds_own {version : UInt32} (hlt : signer.nextSlotVersion < version)
    {file' : StateFile}
    (hholds : Holds signer.privateKey signer.writerSlot version signer.signed file') :
    ∀ position block, signer.signed.get position = some block →
      FileKeeps vrfParses key position block.signatureHash block.signedAtUnix file' :=
  fun _ block hget => ⟨_, _, _, h.privateKey ▸ hholds, h.sound.mono (UInt32.le_of_lt hlt), block, hget, rfl,
    Nat.le_refl _⟩

omit h in
theorem advance_upright (version : UInt32) (disk : Replacement)
    (h : Running vrfParses key timeout journals before file signer)
    (hfiling : Filing vrfParses key before file) :
    Running vrfParses key timeout journals before
        (signer.advanceNextSlotVersion version disk file).file
        (signer.advanceNextSlotVersion version disk file).signer ∧
      Filing vrfParses key before (signer.advanceNextSlotVersion version disk file).file := by
  obtain ⟨answer, file', hcall, -, hfile⟩ | ⟨file', hcall, hlt, hwritten⟩ :=
    advanceNextSlotVersion_cases signer version disk file
  · rw [hcall]
    rcases hfile with rfl | ⟨-, -, hlt, hholds⟩
    · exact ⟨h, hfiling⟩
    · exact ⟨⟨h.privateKey, h.timeout, h.state, h.sound, h.dated, fun _ => h.holds_own hlt hholds⟩,
        .inr ⟨_, _, _, h.privateKey ▸ hholds, h.sound.mono (UInt32.le_of_lt hlt), h.dated⟩⟩
  · rw [hcall]
    have hsound := h.sound.mono (UInt32.le_of_lt hlt)
    rcases hwritten with ⟨-, hholds⟩ | ⟨hfalse, rfl⟩
    · exact ⟨⟨h.privateKey, h.timeout, h.state, hsound, h.dated, fun _ => h.holds_own hlt hholds⟩,
        .inr ⟨_, _, _, h.privateKey ▸ hholds, hsound, h.dated⟩⟩
    · exact ⟨⟨h.privateKey, h.timeout, h.state, hsound, h.dated, h.backed⟩, hfiling⟩

omit h in
theorem setWriterSlot_running (slot : UInt32)
    (h : Running vrfParses key timeout journals before file signer) :
    Running vrfParses key timeout journals before file (signer.setWriterSlot slot) := by
  unfold setWriterSlot
  split_ifs
  · refine ⟨h.privateKey, h.timeout, h.state, AllSound.empty key _ _, ?_, ?_⟩
    · intro position block hget
      rw [get_empty] at hget
      cases hget
    · intro _ position block hget
      rw [get_empty] at hget
      cases hget
  · exact h

theorem Running.allSound :
    AllSound vrfParses signer.privateKey signer.writerSlot signer.nextSlotVersion signer.signed :=
  h.privateKey ▸ h.sound

end

variable [ProposalValidator V]

omit [ProposalValidator V] in
theorem Call.request_eq_some {call : Call V} {proposal : BlockProposal} :
    call.request = some proposal ↔
      call = .sign proposal ∨ ∃ remote, call = .signAfterSlotVersion proposal remote := by
  cases call <;> simp [Call.request]

/-- What a request does, whichever way it is made. -/
theorem request_requested {call : Call V} {proposal : BlockProposal}
    (hrequest : call.request = some proposal)
    (hsound : AllSound vrfParses signer.privateKey signer.writerSlot signer.nextSlotVersion
      signer.signed) (now : Readings) (disk : Replacement) (file : StateFile) :
    ∃ outcome, Requested vrfParses signer (positionOf proposal) (signatureHashOf C proposal)
        now disk file outcome ∧
      signer.call call now disk file = ⟨outcome.answer.map some, outcome.signer, outcome.file⟩ := by
  obtain rfl | ⟨remote, rfl⟩ := Call.request_eq_some.1 hrequest
  · exact ⟨_, sign_requested signer proposal now disk file, rfl⟩
  · exact ⟨_, signAfterSlotVersion_requested remote disk file hsound, rfl⟩

theorem call_upright (call : Call V) (disk : Replacement)
    (h : Running vrfParses key timeout journals before file signer)
    (hfiling : Filing vrfParses key before file) (hnow : before ≤ now.recorded) :
    Running vrfParses key timeout journals now.recorded (signer.call call now disk file).file
        (signer.call call now disk file).signer ∧
      Filing vrfParses key now.recorded (signer.call call now disk file).file := by
  cases hrequest : call.request with
  | some proposal =>
    obtain ⟨outcome, hrequested, hcall⟩ := request_requested hrequest h.allSound now disk file
    rw [hcall]
    exact hrequested.upright h hfiling hnow
  | none =>
    cases call with
    | sign asked => cases hrequest
    | signAfterSlotVersion asked remote => cases hrequest
    | advanceNextSlotVersion version =>
      obtain ⟨hrunning, hfiled⟩ := advance_upright version disk h hfiling
      exact ⟨hrunning.mono hnow, hfiled.mono hnow⟩
    | setWriterSlot slot => exact ⟨(setWriterSlot_running slot h).mono hnow, hfiling.mono hnow⟩
    | validate asked => exact ⟨(h.learnt _).mono hnow, hfiling.mono hnow⟩
    | validatorMut validator => exact ⟨(h.learnt validator).mono hnow, hfiling.mono hnow⟩

variable {place : Position} {blockHash : Bytes 32} {since : Nat}

theorem call_guarded (call : Call V) (disk : Replacement)
    (h : Running vrfParses key timeout journals before file signer)
    (hkeeps : Keeps place blockHash since signer.signed)
    (hfile : journals = true → FileKeeps vrfParses key place blockHash since file)
    (hnow : before ≤ now.recorded) (hsince : since ≤ now.checked) (hmono : now.checked ≤ now.recorded)
    (hstay : ∀ slot, call = .setWriterSlot slot → signer.writerSlot = slot)
    (hcheck : ∀ proposal, call.request = some proposal → positionOf proposal = place →
      signatureHashOf C proposal ≠ blockHash → now.checked < since + timeout) :
    Keeps place blockHash since (signer.call call now disk file).signer.signed ∧
      (journals = true → FileKeeps vrfParses key place blockHash since (signer.call call now disk file).file) := by
  cases hrequest : call.request with
  | some proposal =>
    obtain ⟨outcome, hrequested, hcall⟩ := request_requested hrequest h.allSound now disk file
    rw [hcall]
    exact hrequested.guarded h hkeeps hfile hnow hsince hmono (h.timeout ▸ hcheck proposal hrequest)
  | none =>
    cases call with
    | sign asked => cases hrequest
    | signAfterSlotVersion asked remote => cases hrequest
    | advanceNextSlotVersion version =>
      obtain ⟨answer, file', hcall, -, hnewFile⟩ | ⟨file', hcall, hlt, hwritten⟩ :=
        advanceNextSlotVersion_cases signer version disk file
      · simp only [call, hcall]
        rcases hnewFile with rfl | ⟨-, -, hlt, hholds⟩
        · exact ⟨hkeeps, hfile⟩
        · exact ⟨hkeeps, fun _ =>
            ⟨_, _, _, h.privateKey ▸ hholds, h.sound.mono (UInt32.le_of_lt hlt), hkeeps⟩⟩
      · simp only [call, hcall]
        exact ⟨hkeeps, fun hjournals =>
          ⟨_, _, _, h.privateKey ▸ hwritten.holds (h.state.trans hjournals),
            h.sound.mono (UInt32.le_of_lt hlt), hkeeps⟩⟩
    | setWriterSlot slot =>
      simp only [call, setWriterSlot, hstay slot rfl, ne_eq, not_true_eq_false, if_false]
      exact ⟨hkeeps, hfile⟩
    | validate asked => exact ⟨hkeeps, hfile⟩
    | validatorMut validator => exact ⟨hkeeps, hfile⟩

end Calls

/-! ## Steps -/

section Steps

variable (key : StacksPrivateKey C) (timeout : Nat) (journals : Bool)

/-- Openings are with one key and one timeout, and there are none where no state file is kept. -/
def Step.Configured : Step C V → Prop
  | .fromStateFile config _ =>
    config.privateKey = key ∧ config.conflictTimeoutSecs = timeout ∧ journals = true
  | _ => True

/-- How a run begins: with nothing, where state files are kept, or with a signer that keeps none. -/
inductive Begins : World C V → Bool → Prop
  | opened : Begins World.start true
  | created (config : SignerConfig C) (validator : V) (hkey : config.privateKey = key)
      (htimeout : config.conflictTimeoutSecs = timeout) :
      Begins ⟨some (EmbeddedSigner.new config validator), none⟩ false

/-- The clock does not run backwards while a step reads it. -/
def Step.Ticks (now : Nat) : Step C V → Prop
  | .call _ read _ | .lost _ read _ => now ≤ read.looked ∧ read.looked ≤ read.checked ∧
      read.checked ≤ read.dated ∧ read.dated ≤ read.recorded
  | _ => True

/-- The clock as a step leaves it. -/
def Step.clock (now : Nat) : Step C V → Nat
  | .call _ read _ | .lost _ read _ => read.recorded
  | _ => now

/-- The clock does not run backwards over a run. -/
def Clocked (now : Nat) : List (Step C V) → Prop
  | [] => True
  | step :: rest => step.Ticks now ∧ Clocked (step.clock now) rest

def clockAfter (now : Nat) (steps : List (Step C V)) : Nat :=
  steps.foldl (fun time step => step.clock time) now

/-- A step asks to sign another block than the given one at its position, at or after a time. -/
def Step.Contends (place : Position) (blockHash : Bytes 32) (time : Nat) : Step C V → Prop
  | .call made read _ | .lost made read _ => ∃ proposal, made.request = some proposal ∧
      positionOf proposal = place ∧ signatureHashOf C proposal ≠ blockHash ∧ time ≤ read.checked
  | _ => False

/-- A step moves a running signer to another slot. -/
def Step.Moves (world : World C V) (step : Step C V) : Prop :=
  ∃ slot read disk signer, step = .call (.setWriterSlot slot) read disk ∧ world.signer = some signer ∧
    signer.writerSlot ≠ slot

variable (vrfParses) in
/-- No step of a run moves the signer to another slot. -/
def Stays [ProposalValidator V] (world : World C V) : List (Step C V) → Prop
  | [] => True
  | step :: rest => ¬step.Moves world ∧ Stays (world.step vrfParses step) rest

end Steps

section Clock

variable {now : Nat}

theorem clocked_append {first second : List (Step C V)} :
    Clocked now (first ++ second) ↔ Clocked now first ∧ Clocked (clockAfter now first) second := by
  induction first generalizing now with
  | nil => simp [Clocked, clockAfter]
  | cons step first ih =>
    rw [cons_append, Clocked, Clocked, ih, and_assoc]
    rfl

theorem Step.Ticks.le {step : Step C V} (h : step.Ticks now) : now ≤ step.clock now := by
  cases step with
  | call made read disk | lost made read disk =>
    obtain ⟨h₁, h₂, h₃, h₄⟩ := h
    show now ≤ read.recorded
    omega
  | crash => exact Nat.le_refl now
  | fromStateFile config validator => exact Nat.le_refl now

variable {steps : List (Step C V)}

theorem Clocked.le (h : Clocked now steps) : now ≤ clockAfter now steps := by
  induction steps generalizing now with
  | nil => exact Nat.le_refl now
  | cons step steps ih => exact h.1.le.trans (ih h.2)

theorem Clocked.not_contends {made : Call V} {read : Readings} {disk : Replacement}
    (h : Clocked now (steps ++ [.call made read disk])) {place : Position} {blockHash : Bytes 32}
    {time : Nat} (htime : read.checked < time) :
    ∀ step ∈ steps, ¬step.Contends place blockHash time := by
  induction steps generalizing now with
  | nil => exact fun _ h => absurd h not_mem_nil
  | cons first steps ih =>
    rw [cons_append] at h
    obtain ⟨hfirst, hrest⟩ := h
    intro step hstep
    rcases mem_cons.1 hstep with rfl | hstep
    · have hlater : step.clock now ≤ read.checked := by
        obtain ⟨hsteps, hlast, -⟩ := clocked_append.1 hrest
        obtain ⟨h₁, h₂, -⟩ := hlast
        have := hsteps.le
        omega
      cases step with
      | call made' read' disk' | lost made' read' disk' =>
        rintro ⟨proposal, -, -, -, hle⟩
        obtain ⟨h₁, h₂, h₃, h₄⟩ := hfirst
        have : read'.recorded ≤ read.checked := hlater
        omega
      | crash => exact id
      | fromStateFile config validator => exact id
    · exact ih hrest step hstep

end Clock

section Runs

variable {key : StacksPrivateKey C} {timeout : Nat} {journals : Bool} {now : Nat} {world : World C V}

theorem Begins.upright (h : Begins key timeout world journals) :
    Upright vrfParses key timeout journals 0 world := by
  cases h with
  | opened => exact ⟨nofun, .inl rfl⟩
  | created config validator hkey htimeout =>
    refine ⟨?_, .inl rfl⟩
    rintro _ ⟨⟩
    refine ⟨hkey, htimeout, rfl, AllSound.empty key _ _, ?_, nofun⟩
    intro position block hget
    cases (get_empty position).symm.trans hget

theorem Filing.opened {file : StateFile} (h : Filing vrfParses key now file)
    {config : SignerConfig C} (hkey : config.privateKey = key) {next : UInt32} {signed : SignedBlocks}
    (hopen : SignerStateStore.openFile vrfParses config file = .ok (next, signed)) :
    AllSound vrfParses key config.writerSlot next signed ∧ Dated now signed ∧
      (signed = .empty ∨ Holds key config.writerSlot next signed file) := by
  rcases h with rfl | ⟨slot, next', signed', hholds, hsound, hdated⟩
  · obtain ⟨rfl, rfl⟩ := Prod.mk.inj (Except.ok.inj hopen)
    refine ⟨AllSound.empty key _ _, ?_, .inl rfl⟩
    intro position block hget
    cases (get_empty position).symm.trans hget
  · have hslot := hholds.slot_eq hopen
    rw [hholds.openFile hsound hkey hslot] at hopen
    obtain ⟨rfl, rfl⟩ := Prod.mk.inj (Except.ok.inj hopen)
    exact ⟨hslot ▸ hsound, hdated, .inr (hslot ▸ hholds)⟩

variable [ProposalValidator V]

theorem step_fromStateFile {file : StateFile} {config : SignerConfig C} {validator : V}
    {signer : EmbeddedSigner C V}
    (h : (World.step vrfParses (⟨none, file⟩ : World C V) (.fromStateFile config validator)).signer
      = some signer) :
    ∃ next signed, SignerStateStore.openFile vrfParses config file = .ok (next, signed) ∧
      signer = ⟨config.privateKey, validator, config.writerSlot, next, config.conflictTimeoutSecs, signed,
        true, .empty⟩ := by
  simp only [step, fromStateFile] at h
  cases hopen : SignerStateStore.openFile vrfParses config file with
  | error error =>
    rw [hopen] at h
    cases h
  | ok found =>
    rw [hopen] at h
    exact ⟨found.1, found.2, rfl, (some.inj h).symm⟩

theorem file_fromStateFile (world : World C V) (config : SignerConfig C) (validator : V) :
    (world.step vrfParses (.fromStateFile config validator)).file = world.file := by
  obtain ⟨running, file⟩ := world
  cases running with
  | some signer => rfl
  | none =>
    simp only [step]
    split <;> rfl

theorem Upright.step (h : Upright vrfParses key timeout journals now world) {step : Step C V}
    (hconfigured : step.Configured key timeout journals) (hticks : step.Ticks now) :
    Upright vrfParses key timeout journals (step.clock now) (world.step vrfParses step) := by
  obtain ⟨running, file⟩ := world
  have hle := hticks.le
  cases step with
  | call made read disk =>
    cases running with
    | none => exact ⟨nofun, h.filing.mono hle⟩
    | some signer =>
      obtain ⟨hrunning, hfiling⟩ := call_upright made disk (h.running signer rfl) h.filing hle
      refine ⟨?_, hfiling⟩
      rintro _ ⟨⟩
      exact hrunning
  | lost made read disk =>
    cases running with
    | none => exact ⟨nofun, h.filing.mono hle⟩
    | some signer => exact ⟨nofun, (call_upright made disk (h.running signer rfl) h.filing hle).2⟩
  | crash => exact ⟨nofun, h.filing⟩
  | fromStateFile config validator =>
    cases running with
    | some signer => exact h
    | none =>
      refine ⟨?_, ?_⟩
      · intro signer hsigner
        obtain ⟨next, signed, hopen, rfl⟩ := step_fromStateFile hsigner
        obtain ⟨hkey, htimeout, hjournals⟩ := hconfigured
        obtain ⟨hsound, hdated, hheld⟩ := h.filing.opened hkey hopen
        rw [file_fromStateFile]
        refine ⟨hkey, htimeout, hjournals.symm, hsound, hdated, fun _ position block hget => ?_⟩
        rcases hheld with rfl | hholds
        · cases (get_empty position).symm.trans hget
        · exact ⟨_, _, _, hholds, hsound, block, hget, rfl, Nat.le_refl _⟩
      · rw [file_fromStateFile]
        exact h.filing

theorem Upright.run {steps : List (Step C V)} (h : Upright vrfParses key timeout journals now world)
    (hconfigured : ∀ step ∈ steps, step.Configured key timeout journals)
    (hclock : Clocked now steps) :
    Upright vrfParses key timeout journals (clockAfter now steps) (world.run vrfParses steps) := by
  induction steps generalizing world now with
  | nil => exact h
  | cons step steps ih =>
    exact ih (h.step (hconfigured step mem_cons_self) hclock.1)
      (fun other hother => hconfigured other (mem_cons_of_mem _ hother)) hclock.2

variable {place : Position} {blockHash : Bytes 32} {since : Nat}

section

variable (h : Guarded vrfParses key journals place blockHash since world)

include h

section

variable (hupright : Upright vrfParses key timeout journals now world)

include hupright

theorem Guarded.step {step : Step C V} (hconfigured : step.Configured key timeout journals)
    (hticks : step.Ticks now) (hsince : since ≤ now) (hstays : ¬step.Moves world)
    (hcontends : ¬step.Contends place blockHash (since + timeout)) :
    Guarded vrfParses key journals place blockHash since (world.step vrfParses step) := by
  obtain ⟨running, file⟩ := world
  cases step with
  | call made read disk =>
    cases running with
    | none => exact h
    | some signer =>
      obtain ⟨h₁, h₂, h₃, h₄⟩ := hticks
      obtain ⟨hkeeps, hfile⟩ := call_guarded made disk (hupright.running signer rfl) (h.running signer rfl)
        h.file (by omega) (by omega) (by omega)
        (fun slot hslot => by_contra fun hne =>
          hstays ⟨slot, read, disk, signer, congrArg (Step.call · read disk) hslot, rfl, hne⟩)
        (fun proposal hrequest hplace hne => not_le.1 fun hle =>
          hcontends ⟨proposal, hrequest, hplace, hne, hle⟩)
      refine ⟨?_, hfile⟩
      rintro _ ⟨⟩
      exact hkeeps
  | lost made read disk =>
    cases running with
    | none => exact h
    | some signer =>
      refine ⟨nofun, ?_⟩
      by_cases hmoved : ∃ slot, made = .setWriterSlot slot
      · obtain ⟨slot, rfl⟩ := hmoved
        exact h.file
      · obtain ⟨h₁, h₂, h₃, h₄⟩ := hticks
        exact (call_guarded made disk (hupright.running signer rfl) (h.running signer rfl) h.file (by omega)
          (by omega) (by omega) (fun slot hslot => absurd ⟨slot, hslot⟩ hmoved)
          (fun proposal hrequest hplace hne => not_le.1 fun hle =>
            hcontends ⟨proposal, hrequest, hplace, hne, hle⟩)).2
  | crash => exact ⟨nofun, h.file⟩
  | fromStateFile config validator =>
    cases running with
    | some signer => exact h
    | none =>
      refine ⟨?_, ?_⟩
      · intro signer hsigner
        obtain ⟨next, signed, hopen, rfl⟩ := step_fromStateFile hsigner
        obtain ⟨hkey, -, hjournals⟩ := hconfigured
        obtain ⟨slot, next', signed', hholds, hsound, hkeeps⟩ := h.file hjournals
        rw [hholds.openFile hsound hkey (hholds.slot_eq hopen)] at hopen
        obtain ⟨-, rfl⟩ := Prod.mk.inj (Except.ok.inj hopen)
        exact hkeeps
      · rw [file_fromStateFile]
        exact h.file

theorem Guarded.run {steps : List (Step C V)} (hconfigured : ∀ step ∈ steps, step.Configured key timeout journals)
    (hclock : Clocked now steps) (hsince : since ≤ now) (hstays : Stays vrfParses world steps)
    (hcontends : ∀ step ∈ steps, ¬step.Contends place blockHash (since + timeout)) :
    Guarded vrfParses key journals place blockHash since (world.run vrfParses steps) := by
  induction steps generalizing world now with
  | nil => exact h
  | cons step steps ih =>
    have hconfigured' := hconfigured step mem_cons_self
    exact ih (h.step hupright hconfigured' hclock.1 hsince hstays.1 (hcontends step mem_cons_self))
      (hupright.step hconfigured' hclock.1)
      (fun other hother => hconfigured other (mem_cons_of_mem _ hother)) hclock.2
      (hsince.trans hclock.1.le) hstays.2
      (fun other hother => hcontends other (mem_cons_of_mem _ hother))

/-! ## The block that is protected -/

end

end

variable {signer : EmbeddedSigner C V} {before : Nat} {file : StateFile} {read : Readings}
  {disk : Replacement} {proposal : BlockProposal}

omit [ProposalValidator V] in
theorem record_answer {data : List UInt8} (hsize : data.length ≤ maxChunkSize) (version : UInt32)
    (time : Nat) (disk : Replacement) (file : StateFile) :
    (∃ chunk, (signer.record place blockHash data version time disk file).answer = .ok chunk ∧
      chunk.data = data) ∨
    (signer.record place blockHash data version time disk file).answer = .error .slotVersionOverflow ∨
    ∃ error, (signer.record place blockHash data version time disk file).answer
      = .error (.state error) := by
  unfold record
  split_ifs with hroom
  · have hsign : (Chunk.new signer.writerSlot version data).sign signer.privateKey = .ok _ :=
      Chunk.sign_eq_ok.2 ⟨hsize, rfl⟩
    rw [hsign]
    dsimp only
    split
    · exact .inr (.inr ⟨_, rfl⟩)
    · exact .inl ⟨_, rfl, rfl⟩
  · exact .inr (.inl rfl)

theorem answer_of_keeps (h : Running vrfParses key timeout journals before file signer)
    (hkeeps : Keeps (positionOf proposal) (signatureHashOf C proposal) since signer.signed)
    {call : Call V} (hrequest : call.request = some proposal) (read : Readings) (disk : Replacement) :
    (∃ chunk, (signer.call call read disk file).answer = .ok (some chunk) ∧
      Accepts vrfParses key chunk.data (signatureHashOf C proposal)) ∨
    (signer.call call read disk file).answer = .error .slotVersionOverflow ∨
    ∃ error, (signer.call call read disk file).answer = .error (.state error) := by
  obtain ⟨block, hget, hhash, -⟩ := hkeeps
  have haccepts := hhash ▸ (h.sound _ block hget).accepts
  obtain rfl | ⟨remote, rfl⟩ := Call.request_eq_some.1 hrequest
  · refine .inl ⟨block.chunk, ?_, haccepts⟩
    simp only [call, sign, hget, if_pos hhash]
    rfl
  · simp only [call, signAfterSlotVersion, hget, hhash, ne_eq,
      not_true_eq_false, if_false]
    split_ifs
    · exact .inl ⟨block.chunk, rfl, haccepts⟩
    · obtain ⟨chunk, hanswer, hdata⟩ | hanswer | ⟨error, hanswer⟩ :=
        record_answer haccepts.length_le signer.nextSlotVersion read.recorded disk file
      · rw [hanswer]
        exact .inl ⟨chunk, rfl, hdata ▸ haccepts⟩
      · rw [hanswer]
        exact .inr (.inl rfl)
      · rw [hanswer]
        exact .inr (.inr ⟨error, rfl⟩)

/-- What an acceptance leaves: the block is remembered as of when its chunk was recorded, which is now
unless the chunk was remembered before. -/
theorem guarded_of_answer {chunk : Chunk} (hupright : Upright vrfParses key timeout journals now world)
    {call : Call V} (hrequest : call.request = some proposal)
    (hticks : (Step.call call read disk : Step C V).Ticks now)
    (hanswer : world.answer call read disk = some (.ok (some chunk))) :
    ∃ signedAt, (signedAt = read.recorded ∨ ∃ signer, world.signer = some signer ∧
        signer.signed.get (positionOf proposal)
          = some ⟨signatureHashOf C proposal, chunk, signedAt⟩) ∧
      signedAt ≤ read.recorded ∧
      Accepts vrfParses key chunk.data (signatureHashOf C proposal) ∧
      Guarded vrfParses key journals (positionOf proposal) (signatureHashOf C proposal)
        signedAt (world.step vrfParses (.call call read disk)) := by
  obtain ⟨running, file⟩ := world
  cases running with
  | none => cases hanswer
  | some signer =>
    have hrunning := hupright.running signer rfl
    obtain ⟨outcome, hrequested, hcall⟩ := request_requested hrequest hrunning.allSound read disk file
    obtain ⟨hafter, hfiling⟩ := hrequested.upright hrunning hupright.filing hticks.le
    have hok : outcome.answer = .ok chunk := by
      have hresult : (signer.call call read disk file).answer = .ok (some chunk) :=
        some.inj hanswer
      rw [hcall] at hresult
      exact map_some_eq_ok.1 hresult
    obtain ⟨signedAt, hget, hwhen⟩ := hrequested.held hok
    have hworld : step vrfParses (⟨some signer, file⟩ : World C V) (.call call read disk)
        = ⟨some outcome.signer, outcome.file⟩ := by
      simp only [step, hcall]
    refine ⟨signedAt, hwhen.imp id fun hbefore => ⟨signer, rfl, hbefore⟩, hafter.dated _ _ hget,
      (hafter.sound _ _ hget).accepts, ?_⟩
    rw [hworld]
    refine ⟨?_, fun hjournals => hafter.backed hjournals _ _ hget⟩
    rintro _ ⟨⟩
    exact ⟨_, hget, rfl, Nat.le_refl _⟩

end Runs

/-- A block whose acceptance is handed out is protected from when its chunk was recorded, which is when
it is handed out unless it was remembered from before: until the timeout has passed no other block at its
position is accepted, and as long as no other was asked for after that, a request for the block itself is
answered with its acceptance, or fails for want of a version or of a file. A rebind to another slot ends
the protection. -/
theorem signed_block_protected [ProposalValidator V] (vrfParses : Bytes 80 → Bool)
    (key : StacksPrivateKey C) (timeout : Nat) (journals : Bool) (start : World C V)
    (hbegins : Begins key timeout start journals) (before between : List (Step C V))
    (first second : Call V) (now now' : Readings) (disk disk' : Replacement)
    (hconfigured : ∀ step ∈ before ++ .call first now disk :: (between ++ [.call second now' disk']),
      step.Configured key timeout journals)
    (hclock : Clocked 0 (before ++ .call first now disk :: (between ++ [.call second now' disk'])))
    (proposal proposal' : BlockProposal) (hfirst : first.request = some proposal)
    (hsecond : second.request = some proposal') (hposition : positionOf proposal' = positionOf proposal)
    (chunk : Chunk)
    (hanswer : (start.run vrfParses before).answer first now disk = some (.ok (some chunk)))
    (hstays : Stays vrfParses
      ((start.run vrfParses before).step vrfParses (.call first now disk)) between) :
    let signatureHash := signatureHashOf C proposal
    let last := ((start.run vrfParses before).step vrfParses (.call first now disk)).run
      vrfParses between
    ∃ signedAt, (signedAt = now.recorded ∨ ∃ signer, (start.run vrfParses before).signer = some signer ∧
        signer.signed.get (positionOf proposal) = some ⟨signatureHash, chunk, signedAt⟩) ∧
      Accepts vrfParses key chunk.data signatureHash ∧
      (signatureHashOf C proposal' ≠ signatureHash →
        ∀ chunk', last.answer second now' disk' = some (.ok (some chunk')) →
          signedAt + timeout ≤ now'.checked) ∧
      (signatureHashOf C proposal' = signatureHash →
        (∀ step ∈ between, ¬step.Contends (positionOf proposal) signatureHash (signedAt + timeout)) →
        ∀ result, last.answer second now' disk' = some result →
          (∃ chunk', result = .ok (some chunk') ∧ Accepts vrfParses key chunk'.data signatureHash) ∨
            result = .error .slotVersionOverflow ∨ ∃ error, result = .error (.state error)) := by
  intro signatureHash last
  obtain ⟨hbefore, hticks, hrest⟩ := clocked_append.1 hclock
  have hupright : Upright vrfParses key timeout journals (clockAfter 0 before)
      (start.run vrfParses before) :=
    hbegins.upright.run (fun step hstep => hconfigured step (by simp [hstep])) hbefore
  obtain ⟨signedAt, hwhen, hle, haccepts, hguarded⟩ := guarded_of_answer hupright hfirst hticks hanswer
  have hafter := hupright.step (hconfigured _ (by simp)) hticks
  have hbetween : ∀ step ∈ between, step.Configured key timeout journals :=
    fun step hstep => hconfigured step (by simp [hstep])
  obtain ⟨hclocked, hlast, -⟩ := clocked_append.1 hrest
  have hsince : signedAt ≤ now'.checked := by
    have hlater := hclocked.le
    obtain ⟨h₁, h₂, -⟩ := hlast
    have hclock' : (Step.call first now disk : Step C V).clock (clockAfter 0 before) = now.recorded := rfl
    omega
  have hthere := fun hcontends =>
    hguarded.run hafter hbetween hclocked hle hstays hcontends
  have hthen := hafter.run hbetween hclocked
  refine ⟨signedAt, hwhen, haccepts, ?_, ?_⟩
  · intro hne chunk' hok
    -- were it too early, every request in between would have been refused as well
    by_contra hearly
    have hkept := hthere (hrest.not_contends (not_le.1 hearly))
    simp only [answer, map_eq_some_iff] at hok
    obtain ⟨signer, hsigner, hresult⟩ := hok
    have hrunning := hthen.running signer hsigner
    obtain ⟨outcome, hrequested, hcall⟩ := request_requested hsecond hrunning.allSound now' disk' last.file
    rw [hcall] at hresult
    rw [hposition] at hrequested
    exact hrequested.not_ok (hkept.running signer hsigner) hne hsince
      (hrunning.timeout ▸ not_le.1 hearly) (map_some_eq_ok.1 hresult)
  · intro hequal hcontends result hresult
    have hsame : signatureHashOf C proposal' = signatureHashOf C proposal := hequal
    have hkept := hthere hcontends
    simp only [answer, map_eq_some_iff] at hresult
    obtain ⟨signer, hsigner, rfl⟩ := hresult
    have hkeeps := hkept.running signer hsigner
    rw [← hposition, ← hsame] at hkeeps
    have hanswered := answer_of_keeps (hthen.running signer hsigner) hkeeps hsecond now' disk'
    rw [hsame] at hanswered
    rcases hanswered with ⟨chunk', hok, hdata⟩ | hoverflow | ⟨error, hfailed⟩
    · exact .inl ⟨chunk', hok, hdata⟩
    · exact .inr (.inl hoverflow)
    · exact .inr (.inr ⟨error, hfailed⟩)

theorem run_signedRun (vrfParses : Bytes 80 → Bool) (next : UInt32)
    (rest : List (Step plainCrypto Lenient)) :
    World.start.run vrfParses (signedRun next rest)
      = ((World.start.run vrfParses (signedRun next []).dropLast).step vrfParses
        (.call (.sign (plainProposal 1 0)) (atTime 10) .stored)).run vrfParses rest :=
  rfl

theorem signed_block_protected_restarted :
    (∃ chunk, asked (signedRun 3 []).dropLast (plainProposal 1 0) 10 = some (.ok (some chunk))) ∧
      ∀ chunk, asked (signedRun 3 [.crash, .fromStateFile (plainConfig 7 1) .lenient])
        (plainProposal 1 1) 39 ≠ some (.ok (some chunk)) := by
  have hsome : (chunkOf (asked (signedRun 3 []).dropLast (plainProposal 1 0) 10)).isSome = true := by
    decide +kernel
  obtain ⟨chunk, hchunk⟩ := isSome_iff_exists.1 hsome
  have hanswer := eq_of_chunkOf hchunk
  refine ⟨⟨chunk, hanswer⟩, ?_⟩
  intro chunk' hother
  rw [asked, run_signedRun] at hother
  obtain ⟨signedAt, hwhen, -, hearly, -⟩ := signed_block_protected (fun _ => true) plainKey 30 true
    start .opened (signedRun 3 []).dropLast [.crash, .fromStateFile (plainConfig 7 1) .lenient]
    (.sign (plainProposal 1 0)) (.sign (plainProposal 1 1)) (atTime 10) (atTime 39) .stored .stored
    (by simp [signedRun, Step.Configured, plainConfig])
    (by simp [signedRun, Clocked, Step.Ticks, Step.clock, atTime])
    (plainProposal 1 0) (plainProposal 1 1) rfl rfl rfl chunk hanswer
    (by simp [Stays, Step.Moves])
  have hlate := hearly (by decide +kernel) chunk' hother
  obtain rfl | ⟨signer, hsigner, hget⟩ := hwhen
  · exact absurd hlate (by decide)
  · obtain rfl := some.inj hsigner
    cases hget

/-- The protection ends with a rebind to another slot and is not renewed when the chunk is returned
again; and a block may be remembered while no version is left to answer it under. -/
theorem acceptance_not_protected :
    signatureHashOf plainCrypto (plainProposal 1 1)
        ≠ signatureHashOf plainCrypto (plainProposal 1 0) ∧
      (chunkOf (asked (signedRun 3 []).dropLast (plainProposal 1 0) 10)).isSome = true ∧
      (chunkOf (asked (signedRun 3 [.call (.setWriterSlot 8) (atTime 10) .stored])
        (plainProposal 1 1) 11)).isSome = true ∧
      (chunkOf (asked (signedRun 3 []) (plainProposal 1 0) 39)).isSome = true ∧
      (chunkOf (asked (signedRun 3 [.call (.sign (plainProposal 1 0)) (atTime 39) .stored])
        (plainProposal 1 1) 41)).isSome = true ∧
      (World.start.run (fun _ => true) (signedRun 4294967294 [])).answer
        (.signAfterSlotVersion (plainProposal 1 0) 4294967294) (atTime 11) .stored
        = some (.error .slotVersionOverflow) := by
  decide +kernel

/-! ## Requests that fail -/

section Failures

variable {C : Crypto} {V : Type} {signer : EmbeddedSigner C V} {now : Readings} {disk : Replacement}
  {file : StateFile} {error : SignerError}

/-- What a request that fails should leave alone. -/
structure Unchanged (signer : EmbeddedSigner C V) (file : StateFile) (signer' : EmbeddedSigner C V)
    (file' : StateFile) : Prop where
  signed : signer'.signed = signer.signed
  nextSlotVersion : signer'.nextSlotVersion = signer.nextSlotVersion
  file : file' = file

/-- A call leaves the signer and the file so. -/
def Outcome.Unchanged {α : Type} (signer : EmbeddedSigner C V) (file : StateFile)
    (outcome : Outcome C V α) : Prop :=
  Signer.Unchanged signer file outcome.signer outcome.file

/-- A request finds the conflict with what was signed at its position expired, each time it looks. -/
def Call.Overturns (signer : EmbeddedSigner C V) (now : Readings) : Call V → Prop
  | .sign proposal => Expired signer (positionOf proposal) (signatureHashOf C proposal) now
  | .signAfterSlotVersion proposal _ =>
    Expired signer (positionOf proposal) (signatureHashOf C proposal) now ∧
      Expired signer (positionOf proposal) (signatureHashOf C proposal)
        { now with checked := now.looked }
  | _ => False

theorem expired_iff {position : Position} {signatureHash : Bytes 32} {block : SignedBlock}
    (hget : signer.signed.get position = some block) :
    Expired signer position signatureHash now ↔ block.signatureHash ≠ signatureHash ∧
      ¬now.checked - block.signedAtUnix < signer.conflictTimeoutSecs := by
  simp only [Expired, hget, some.injEq, exists_eq_left', not_lt]

theorem not_expired_of_none {position : Position} {signatureHash : Bytes 32}
    (hget : signer.signed.get position = none) : ¬Expired signer position signatureHash now := by
  simp [Expired, hget]

theorem map_some_eq_error {ε α : Type} {x : Except ε α} {e : ε} :
    x.map some = .error e ↔ x = .error e := by
  cases x <;> simp [Except.map]

variable (atomic : disk ≠ .unsynced)

include atomic

theorem record_failed {position : Position} {signatureHash : Bytes 32} {data : List UInt8}
    {slotVersion : UInt32} {time : Nat}
    (h : (signer.record position signatureHash data slotVersion time disk file).answer = .error error) :
    Outcome.Unchanged signer file (signer.record position signatureHash data slotVersion time disk file) := by
  revert h
  unfold record
  split_ifs
  · split
    · exact fun _ => ⟨rfl, rfl, rfl⟩
    · rename_i chunk _
      obtain ⟨file', hsave, -⟩ | ⟨error, file', hsave, hfile⟩ := save_cases signer (slotVersion + 1)
        (signer.signed.insert position ⟨signatureHash, chunk, time⟩) disk file
      · simp only [hsave]
        exact nofun
      · simp only [hsave]
        exact fun _ => ⟨rfl, rfl, hfile.resolve_right fun hunsynced => atomic hunsynced.1⟩
  · exact fun _ => ⟨rfl, rfl, rfl⟩

variable [ProposalValidator V] {proposal : BlockProposal}

theorem signNew_failed (h : (signer.signNew proposal now disk file).answer = .error error) :
    Outcome.Unchanged signer file (signer.signNew proposal now disk file) := by
  revert h
  unfold signNew
  split
  · exact fun _ => ⟨rfl, rfl, rfl⟩
  · dsimp only [extendTimestamp]
    split
    · exact fun _ => ⟨rfl, rfl, rfl⟩
    · intro h
      obtain ⟨hsigned, hnext, hfile⟩ := record_failed atomic h
      exact ⟨hsigned, hnext, hfile⟩

theorem sign_failed (h : (signer.sign proposal now disk file).answer = .error error) :
    Outcome.Unchanged signer file (signer.sign proposal now disk file) ↔
      ¬Expired signer (positionOf proposal) (signatureHashOf C proposal) now := by
  revert h
  unfold sign
  cases hget : signer.signed.get (positionOf proposal) with
  | none => exact fun h => iff_of_true (signNew_failed atomic h) (not_expired_of_none hget)
  | some block =>
    rw [expired_iff hget]
    dsimp only
    split_ifs with hsame hrecent
    · exact nofun
    · exact fun _ => iff_of_true ⟨rfl, rfl, rfl⟩ fun hexpired => hexpired.2 hrecent
    · intro h
      refine iff_of_false (fun hunchanged => ?_) (not_not.2 ⟨hsame, hrecent⟩)
      -- what was signed is gone before anything could fail
      have hgone := (signNew_failed atomic h).signed
      rw [hunchanged.signed] at hgone
      have hnone := get_forget signer (positionOf proposal)
      rw [← hgone, hget] at hnone
      exact absurd hnone (some_ne_none block)

theorem signAfterSlotVersion_failed {remoteSlotVersion : UInt32}
    (h : (signer.signAfterSlotVersion proposal remoteSlotVersion now disk file).answer = .error error) :
    Outcome.Unchanged signer file
        (signer.signAfterSlotVersion proposal remoteSlotVersion now disk file) ↔
      ¬(Call.signAfterSlotVersion proposal remoteSlotVersion).Overturns signer now := by
  revert h
  unfold signAfterSlotVersion Call.Overturns
  cases hget : signer.signed.get (positionOf proposal) with
  | none =>
    intro h
    rw [sign_failed atomic h]
    simp only [not_expired_of_none hget, false_and]
  | some block =>
    dsimp only
    have hlooked : Expired signer (positionOf proposal) (signatureHashOf C proposal)
      { now with checked := now.looked } ↔ _ := expired_iff hget
    rw [hlooked]
    split_ifs with hother hrecent hahead
    · exact fun _ => iff_of_true ⟨rfl, rfl, rfl⟩ fun hexpired => hexpired.2.2 hrecent
    · intro h
      rw [sign_failed atomic h]
      simp only [hother, hrecent, ne_eq, not_false_eq_true, and_self, and_true]
    · exact nofun
    · exact fun h => iff_of_true (record_failed atomic h) fun hexpired => hother hexpired.2.1

end Failures

/-- A request that fails, on a file that is replaced or left, changes nothing of what is signed, which
version is next and what the file holds, and so what was accepted before is handed out again as it was;
unless it found an expired answer to another block, which is forgotten before the new one is validated
and stored. -/
theorem failed_request_unchanged {C : Crypto} {V : Type} [ProposalValidator V]
    (signer : EmbeddedSigner C V) (file : StateFile) (call : Call V) (proposal : BlockProposal)
    (hrequest : call.request = some proposal) (now : Readings) (disk : Replacement)
    (atomic : disk ≠ .unsynced) (error : SignerError)
    (hfailed : (signer.call call now disk file).answer = .error error) :
    (Outcome.Unchanged signer file (signer.call call now disk file) ↔ ¬call.Overturns signer now) ∧
    (¬call.Overturns signer now → ∀ earlier block,
      signer.signed.get (positionOf earlier) = some block →
      block.signatureHash = signatureHashOf C earlier → ∀ later disk',
        ((signer.call call now disk file).signer.sign earlier later disk' file).answer
          = .ok block.chunk) := by
  have hunchanged : Outcome.Unchanged signer file (signer.call call now disk file) ↔
      ¬call.Overturns signer now := by
    obtain rfl | ⟨remote, rfl⟩ := Call.request_eq_some.1 hrequest
    · have h := sign_failed atomic (map_some_eq_error.1 hfailed)
      exact h
    · have h := signAfterSlotVersion_failed atomic (map_some_eq_error.1 hfailed)
      exact h
  refine ⟨hunchanged, fun hcalm earlier block hget hsame later disk' => ?_⟩
  have hsigned := (hunchanged.2 hcalm).signed
  rw [sign, hsigned, hget]
  exact congrArg Outcome.answer (if_pos hsame)

/-- A signer that keeps a state file, after its answer to a block. -/
def accepted : Outcome plainCrypto Lenient Chunk :=
  { EmbeddedSigner.new (plainConfig 7 3) Lenient.lenient with state := true }.sign (plainProposal 1 0)
    (atTime 10) .stored none

theorem failed_request_unchanged_conflicting :
    (accepted.signer.call (.sign (plainProposal 1 1)) (atTime 39) .stored accepted.file).answer
        = .error .equivocation ∧
      (Outcome.Unchanged accepted.signer accepted.file
          (accepted.signer.call (.sign (plainProposal 1 1)) (atTime 39) .stored accepted.file) ↔
        ¬(Call.sign (plainProposal 1 1)).Overturns accepted.signer (atTime 39)) := by
  have hfailed : (accepted.signer.call (.sign (plainProposal 1 1)) (atTime 39) .stored
      accepted.file).answer = .error .equivocation := by
    decide +kernel
  exact ⟨hfailed, (failed_request_unchanged accepted.signer accepted.file _ _ rfl _ _ (by decide) _
    hfailed).1⟩

/-- The file cannot be written when another block is to replace an expired one. It still has the expired
answer, and the signer does not: asked again it answers with a new chunk. -/
theorem expired_answer_lost :
    let failed := accepted.signer.sign (plainProposal 1 1) (atTime 41) .failed accepted.file
    failed.answer = .error (.state .io) ∧ failed.file = accepted.file ∧
      (accepted.signer.signed.get (positionOf (plainProposal 1 0))).isSome = true ∧
      failed.signer.signed.get (positionOf (plainProposal 1 0)) = none ∧
      (failed.signer.sign (plainProposal 1 0) (atTime 42) .stored failed.file).answer
        ≠ accepted.answer := by
  decide +kernel

end NanoStacks.Signer
