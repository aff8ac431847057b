import NanoStacks.Lib.Strings
import NanoStacks.Lib.Result
import Mathlib.Data.List.Chain
import Mathlib.Data.List.Sort
import Mathlib.Data.List.Dedup

/-!
# Builder signatures

A checkpoint is trusted when enough of the builders a local policy names have signed its content root.
Nothing counts the builders directly: a signature file is named after its builder, so files with
different names are by different builders; a policy lists its entries in order of name and start, and
compares neighbours only.

* `BuilderPolicy.validate_pairwise`: what is checked of neighbours holds of all pairs, because it is
  transitive (`Before.trans`): one builder's keys follow one another in time, and no key is listed twice.
* `verified_builders_independent`: the signatures that are counted are by different keys of different
  builders.

Signature files are read as the statements in them; keys and their signatures are a parameter.
-/

namespace NanoStacks.Checkpoint

open Result List

inductive BuilderSignatureError
  | io
  | crypto (error : String)
  | invalid (reason : String)
  deriving DecidableEq

structure BuilderKey where
  name : String
  publicKey : String
  validFromHeight : Nat
  validThroughHeight : Option Nat
  revokedFromHeight : Option Nat
  deriving DecidableEq

structure BuilderPolicy where
  schema : String
  requiredSignatures : Nat
  builders : List BuilderKey

structure BuilderSignature where
  schema : String
  builder : String
  contentRoot : String
  signature : String

structure VerifiedBuilders where
  contentRoot : String
  names : List String
  deriving DecidableEq

/-- An entry of a directory: its name as the file system has it, whether it is a regular file, and what
reading the statement in it gives. -/
structure SignatureFile where
  name : List UInt8
  isRegular : Bool
  statement : Except BuilderSignatureError BuilderSignature

/-- Public keys, and the signatures under them. -/
structure KeyScheme (Key : Type) where
  fromBytes : List UInt8 → Except String Key
  toBytesCompressed : Key → List UInt8
  verifyTransaction : Key → Bytes 32 → Bytes 65 → Except String Unit

def policySchema : String := "nano-stacks/checkpoint-builder-policy/v1"
def signatureSchema : String := "nano-stacks/checkpoint-builder-signature/v1"

/-- The schema and a zero byte. -/
def signatureDomain : List UInt8 := utf8 signatureSchema ++ [0]

/-! ## Keys -/

namespace BuilderKey

def effectiveEnd (builder : BuilderKey) : Except BuilderSignatureError (Option Nat) := do
  ensure (∀ through ∈ builder.validThroughHeight, builder.validFromHeight ≤ through)
    (.invalid s!"builder {builder.name} ends before its key becomes valid")
  ensure (∀ revoked ∈ builder.revokedFromHeight, builder.validFromHeight < revoked)
    (.invalid s!"builder {builder.name} is revoked before its key becomes valid")
  return match builder.validThroughHeight, builder.revokedFromHeight.map (· - 1) with
    | some valid, some revoked => some (min valid revoked)
    | some valid, none => some valid
    | none, some revoked => some revoked
    | none, none => none

def activeAt (builder : BuilderKey) (height : Nat) : Bool :=
  builder.validFromHeight ≤ height &&
    builder.validThroughHeight.all (height ≤ ·) && builder.revokedFromHeight.all (height < ·)

end BuilderKey

def isAsciiLowercase (c : UInt8) : Bool := 97 ≤ c && c ≤ 122
def isAsciiDigit (c : UInt8) : Bool := 48 ≤ c && c ≤ 57

def validateBuilderName (name : String) : Except BuilderSignatureError Unit :=
  let bytes := utf8 name
  ensure (bytes ≠ [] ∧ bytes.length ≤ 64 ∧
      (bytes.all fun byte => isAsciiLowercase byte || isAsciiDigit byte || byte == 45 || byte == 95) ∧
      bytes.head?.any isAsciiLowercase)
    (.invalid s!"builder name \"{name}\" is not canonical")

def decodeHex (text : String) : Except BuilderSignatureError (List UInt8) :=
  okOr (unhex (utf8 text)) (.invalid "invalid hexadecimal text")

section Policy

variable {Key : Type} (scheme : KeyScheme Key)

def parsePublicKey (value : String) : Except BuilderSignatureError Key := do
  ensure ((utf8 value).length = 66 ∧
      (utf8 value).all fun byte => isAsciiHexdigit byte && !isAsciiUppercase byte)
    (.invalid "builder public key is not 33-byte lowercase hexadecimal")
  let bytes ← decodeHex value
  (scheme.fromBytes bytes).mapError .crypto

/-- Names in the order of their bytes, and then starts. -/
def precedes (name : String) (start : Nat) (name' : String) (start' : Nat) : Prop :=
  utf8 name < utf8 name' ∨ (name = name' ∧ start < start')

instance (name name' : String) (start start' : Nat) : Decidable (precedes name start name' start') :=
  inferInstanceAs (Decidable (_ ∨ _))

/-- The entry in front, as far as the next one is compared with it. -/
structure PriorKey where
  name : String
  start : Nat
  effectiveEnd : Option Nat

def checkPrior (prior : Option PriorKey) (builder : BuilderKey) : Except BuilderSignatureError Unit :=
  match prior with
  | none => .ok ()
  | some prior => do
    ensure (precedes prior.name prior.start builder.name builder.validFromHeight)
      (.invalid "builder policy entries are duplicated or not sorted")
    ensure (prior.name = builder.name → prior.effectiveEnd.any (· < builder.validFromHeight))
      (.invalid s!"builder {builder.name} has overlapping key intervals")

def validateBuilders (prior : Option PriorKey) (keys : List String) :
    List BuilderKey → Except BuilderSignatureError Unit
  | [] => .ok ()
  | builder :: rest => do
    validateBuilderName builder.name
    let key ← parsePublicKey scheme builder.publicKey
    let bytes ← decodeHex builder.publicKey
    ensure (scheme.toBytesCompressed key = bytes)
      (.invalid s!"builder {builder.name} does not use a compressed public key")
    ensure (builder.publicKey ∉ keys) (.invalid "one builder key is assigned more than once")
    let effectiveEnd ← builder.effectiveEnd
    checkPrior prior builder
    validateBuilders (some ⟨builder.name, builder.validFromHeight, effectiveEnd⟩)
      (builder.publicKey :: keys) rest

namespace BuilderPolicy

def validate (policy : BuilderPolicy) : Except BuilderSignatureError Unit := do
  ensure (policy.schema = policySchema)
    (.invalid s!"unsupported builder policy schema {policy.schema}")
  ensure (policy.requiredSignatures ≠ 0) (.invalid "builder signature threshold is zero")
  validateBuilders scheme none [] policy.builders
  let distinct := (policy.builders.map (·.name)).dedup.length
  ensure (policy.requiredSignatures ≤ distinct) (.invalid
    s!"builder threshold {policy.requiredSignatures} exceeds {distinct} distinct builders")

def activeKey (policy : BuilderPolicy) (builderName : String) (height : Nat) :
    Except BuilderSignatureError Key :=
  match policy.builders.find? fun builder => builder.name == builderName && builder.activeAt height with
  | some builder => parsePublicKey scheme builder.publicKey
  | none => .error (.invalid s!"builder {builderName} has no active key at height {height}")

def activeBuilders (policy : BuilderPolicy) (height : Nat) : Nat :=
  ((policy.builders.filter (·.activeAt height)).map (·.name)).dedup.length

end BuilderPolicy

/-! ## Signatures -/

def BuilderSignature.validate (statement : BuilderSignature) (root : String) (fileName : List UInt8) :
    Except BuilderSignatureError Unit := do
  ensure (statement.schema = signatureSchema)
    (.invalid s!"unsupported builder signature schema {statement.schema}")
  validateBuilderName statement.builder
  ensure (statement.contentRoot = root) (.invalid
    s!"builder {statement.builder} signed content root {statement.contentRoot} instead of {root}")
  ensure (fileName = utf8 s!"{statement.builder}.toml")
    (.invalid s!"builder signature {ofAscii fileName} has a noncanonical file name")

/-- The files of a directory that is one, in order of name. -/
def signatureFiles (directory : Option (List SignatureFile)) :
    Except BuilderSignatureError (List SignatureFile) := do
  let entries ← okOr directory (.invalid "not a signature directory")
  entries.forM fun entry => ensure (entry.isRegular = true)
    (.invalid s!"signature entry {ofAscii entry.name} is not a regular file")
  return entries.insertionSort fun entry entry' => entry.name ≤ entry'.name

def parseSignature (value : String) : Except BuilderSignatureError (Bytes 65) := do
  let bytes ← decodeHex value
  okOr (Bytes.ofList? 65 bytes) (.invalid "builder signature is not 65-byte hexadecimal")

def signatureDigest (sha256 : List UInt8 → Bytes 32) (root : String) :
    Except BuilderSignatureError (Bytes 32) := do
  let bytes ← decodeHex root
  ensure (bytes.length = 32) (.invalid "checkpoint content root is not 32 bytes")
  return sha256 (signatureDomain ++ bytes)

/-- One signature file: its builder, if the builder's key verifies it. -/
def verifyStatement (policy : BuilderPolicy) (contentRoot : String) (height : Nat)
    (digest : Bytes 32) (file : SignatureFile) : Except BuilderSignatureError String := do
  let statement ← file.statement
  statement.validate contentRoot file.name
  let key ← policy.activeKey scheme statement.builder height
  let signature ← parseSignature statement.signature
  (scheme.verifyTransaction key digest signature).mapError .crypto
  return statement.builder

def verifyBuilderSignatures (sha256 : List UInt8 → Bytes 32) (contentRoot : String) (height : Nat)
    (policy : BuilderPolicy) (signatures : Option (List SignatureFile)) :
    Except BuilderSignatureError VerifiedBuilders := do
  policy.validate scheme
  let active := policy.activeBuilders height
  ensure (policy.requiredSignatures ≤ active) (.invalid
    s!"only {active} builders are active at height {height}, below threshold {policy.requiredSignatures}")
  let entries ← signatureFiles signatures
  let digest ← signatureDigest sha256 contentRoot
  let names ← entries.mapM (verifyStatement scheme policy contentRoot height digest)
  ensure (policy.requiredSignatures ≤ names.length) (.invalid
    s!"{names.length} valid builder signatures do not reach threshold {policy.requiredSignatures}")
  return ⟨contentRoot, names.insertionSort fun name name' => utf8 name ≤ utf8 name'⟩

/-! ## What a policy admits -/

theorem precedes.trans {a b c : String} {i j k : Nat} (h : precedes a i b j) (h' : precedes b j c k) :
    precedes a i c k := by
  rcases h with h | ⟨rfl, h⟩ <;> rcases h' with h' | ⟨rfl, h'⟩
  · exact .inl (List.lt_trans h h')
  · exact .inl h
  · exact .inl h'
  · exact .inr ⟨rfl, h.trans h'⟩

theorem precedes.lt_of_name_eq {a : String} {i j : Nat} (h : precedes a i a j) : i < j := by
  rcases h with h | ⟨-, h⟩
  · exact absurd h (List.lt_irrefl _)
  · exact h

/-- One key is listed in front of another, and is not active any more when the other, if it is by the
same builder, starts. -/
structure BuilderKey.Before (builder builder' : BuilderKey) : Prop where
  precedes : precedes builder.name builder.validFromHeight builder'.name builder'.validFromHeight
  ended : builder.name = builder'.name → ∀ height, builder.activeAt height = true →
    height < builder'.validFromHeight

theorem BuilderKey.Before.trans {a b c : BuilderKey} (h : a.Before b) (h' : b.Before c) :
    a.Before c where
  precedes := h.precedes.trans h'.precedes
  ended hname height hactive := by
    -- A builder's name cannot come back after another one's.
    have hnames : a.name = b.name ∧ b.name = c.name := by
      rcases h.precedes with hab | ⟨hab, -⟩ <;> rcases h'.precedes with hbc | ⟨hbc, -⟩
      · have hac := List.lt_trans hab hbc
        rw [hname] at hac
        exact absurd hac (List.lt_irrefl _)
      · rw [hname, hbc] at hab
        exact absurd hab (List.lt_irrefl _)
      · rw [← hab, hname] at hbc
        exact absurd hbc (List.lt_irrefl _)
      · exact ⟨hab, hbc⟩
    have hstart := h'.precedes
    rw [hnames.2] at hstart
    exact (h.ended hnames.1 height hactive).trans hstart.lt_of_name_eq

instance : IsTrans BuilderKey BuilderKey.Before := ⟨fun _ _ _ => BuilderKey.Before.trans⟩

variable {builder : BuilderKey} {height : Nat}

theorem BuilderKey.le_of_effectiveEnd {last : Nat} (h : builder.effectiveEnd = .ok (some last))
    (hactive : builder.activeAt height = true) : height ≤ last := by
  simp only [effectiveEnd, bind_eq_ok, ensure_eq_ok, return_eq_ok] at h
  obtain ⟨-, -, -, -, h⟩ := h
  simp only [activeAt, Bool.and_eq_true, decide_eq_true_eq] at hactive
  obtain ⟨⟨-, hthrough⟩, hrevoked⟩ := hactive
  cases hv : builder.validThroughHeight with
  | none =>
    cases hr : builder.revokedFromHeight with
    | none => simp [hv, hr] at h
    | some revoked =>
      simp [hv, hr] at h hrevoked
      omega
  | some valid =>
    cases hr : builder.revokedFromHeight with
    | none =>
      simp [hv, hr] at h hthrough
      omega
    | some revoked =>
      simp [hv, hr] at h hthrough hrevoked
      omega

variable {builder' : BuilderKey}

theorem before_of_checkPrior {ends : Option Nat} (hends : builder.effectiveEnd = .ok ends)
    (h : checkPrior (some ⟨builder.name, builder.validFromHeight, ends⟩) builder' = .ok ()) :
    builder.Before builder' := by
  simp only [checkPrior, bind_eq_ok, ensure_eq_ok] at h
  obtain ⟨-, hprecedes, hended⟩ := h
  refine ⟨hprecedes, fun hname height hactive => ?_⟩
  cases ends with
  | none => cases hended hname
  | some last =>
    have hlast : last < builder'.validFromHeight := by simpa using hended hname
    exact (BuilderKey.le_of_effectiveEnd hends hactive).trans_lt hlast

/-- A key is the one its text names, and the text is the only one to name it. -/
def Canonical (builder : BuilderKey) : Prop :=
  ∃ key, parsePublicKey scheme builder.publicKey = .ok key ∧
    decodeHex builder.publicKey = .ok (scheme.toBytesCompressed key)

variable {key : Key}

theorem isLowerHex_of_parsePublicKey {scheme : KeyScheme Key} {value : String}
    (h : parsePublicKey scheme value = .ok key) : ∀ c ∈ utf8 value, IsLowerHex c := by
  simp only [parsePublicKey, bind_eq_ok, ensure_eq_ok] at h
  obtain ⟨-, ⟨-, hdigits⟩, -⟩ := h
  intro c hc
  have hdigit := all_eq_true.1 hdigits c hc
  simpa [IsLowerHex] using hdigit

theorem Canonical.publicKey_eq {scheme : KeyScheme Key} (h : Canonical scheme builder)
    (h' : Canonical scheme builder') (hkey : parsePublicKey scheme builder.publicKey = .ok key)
    (hkey' : parsePublicKey scheme builder'.publicKey = .ok key) :
    builder.publicKey = builder'.publicKey := by
  obtain ⟨key₁, hparse, hbytes⟩ := h
  obtain ⟨key₂, hparse', hbytes'⟩ := h'
  obtain rfl := Except.ok.inj (hparse.symm.trans hkey)
  obtain rfl := Except.ok.inj (hparse'.symm.trans hkey')
  rw [decodeHex, okOr_eq_ok] at hbytes hbytes'
  apply utf8_inj
  rw [← hexText_of_unhex (isLowerHex_of_parsePublicKey hkey) hbytes,
    hexText_of_unhex (isLowerHex_of_parsePublicKey hkey') hbytes']

/-- What the loop over the entries has checked. -/
structure Listed (prior : Option PriorKey) (keys : List String) (builders : List BuilderKey) :
    Prop where
  first : ∀ builder ∈ builders.head?, checkPrior prior builder = .ok ()
  chain : builders.IsChain BuilderKey.Before
  fresh : ∀ builder ∈ builders, builder.publicKey ∉ keys
  nodup : (builders.map (·.publicKey)).Nodup
  canonical : ∀ builder ∈ builders, Canonical scheme builder

variable {builders : List BuilderKey}

theorem listed_of_validateBuilders {scheme : KeyScheme Key} {prior : Option PriorKey}
    {keys : List String} (h : validateBuilders scheme prior keys builders = .ok ()) :
    Listed scheme prior keys builders := by
  induction builders generalizing prior keys with
  | nil => exact ⟨nofun, .nil, nofun, nodup_nil, nofun⟩
  | cons builder rest ih =>
    simp only [validateBuilders, bind_eq_ok, ensure_eq_ok] at h
    obtain ⟨_, -, key, hkey, bytes, hbytes, _, hcompressed, _, hfresh, ends, hends, _, hprior, hrest⟩ := h
    have hlisted := ih hrest
    refine ⟨?_, ?_, ?_, ?_, ?_⟩
    · rintro _ ⟨⟩
      exact hprior
    · refine isChain_cons.2 ⟨fun builder' hhead => ?_, hlisted.chain⟩
      exact before_of_checkPrior hends (hlisted.first builder' hhead)
    · intro other hother
      rcases mem_cons.1 hother with rfl | hother
      · exact hfresh
      · exact fun hmem => hlisted.fresh other hother (mem_cons_of_mem _ hmem)
    · refine nodup_cons.2 ⟨fun hmem => ?_, hlisted.nodup⟩
      obtain ⟨other, hother, heq⟩ := mem_map.1 hmem
      exact hlisted.fresh other hother (heq ▸ mem_cons_self)
    · intro other hother
      rcases mem_cons.1 hother with rfl | hother
      · exact ⟨key, hkey, hcompressed ▸ hbytes⟩
      · exact hlisted.canonical other hother

/-- Two keys that are never active together if they are one builder's, and that are different. -/
structure BuilderKey.Apart (builder builder' : BuilderKey) : Prop where
  times : builder.name = builder'.name → ∀ height, builder.activeAt height = true →
    builder'.activeAt height = false
  keys : ∀ key, parsePublicKey scheme builder.publicKey = .ok key →
    parsePublicKey scheme builder'.publicKey ≠ .ok key

theorem Listed.pairwise {scheme : KeyScheme Key} {prior : Option PriorKey} {keys : List String}
    (h : Listed scheme prior keys builders) : builders.Pairwise (BuilderKey.Apart scheme) := by
  have hbefore : builders.Pairwise BuilderKey.Before := isChain_iff_pairwise.1 h.chain
  have hdifferent : builders.Pairwise fun b b' => b.publicKey ≠ b'.publicKey :=
    pairwise_map.1 h.nodup
  refine (hbefore.and hdifferent).imp_of_mem fun {b b'} hb hb' hboth => ⟨?_, ?_⟩
  · intro hname height hactive
    have hlt := hboth.1.ended hname height hactive
    simp [BuilderKey.activeAt, hlt]
  · intro key hkey hkey'
    exact hboth.2 ((h.canonical b hb).publicKey_eq (h.canonical b' hb') hkey hkey')

variable {policy : BuilderPolicy}

theorem BuilderPolicy.validate_pairwise {scheme : KeyScheme Key}
    (h : policy.validate scheme = .ok ()) : policy.builders.Pairwise (BuilderKey.Apart scheme) := by
  simp only [validate, bind_eq_ok, ensure_eq_ok] at h
  obtain ⟨_, -, _, -, _, hbuilders, -⟩ := h
  exact (listed_of_validateBuilders hbuilders).pairwise

theorem BuilderPolicy.eq_of_key_eq {scheme : KeyScheme Key} (h : policy.validate scheme = .ok ())
    (hmem : builder ∈ policy.builders) (hmem' : builder' ∈ policy.builders)
    (hkey : parsePublicKey scheme builder.publicKey = .ok key)
    (hkey' : parsePublicKey scheme builder'.publicKey = .ok key) : builder = builder' := by
  by_contra hne
  have hsymm : Std.Symm fun b b' : BuilderKey => ∀ key, parsePublicKey scheme b.publicKey = .ok key →
      parsePublicKey scheme b'.publicKey ≠ .ok key :=
    ⟨fun b b' hb key hkey' hkey => hb key hkey hkey'⟩
  have hkeys := (BuilderPolicy.validate_pairwise h).imp fun hapart => hapart.keys
  exact hkeys.forall hmem hmem' hne key hkey hkey'

/-! ## What a verification shows -/

/-- A listed builder, active at a height, whose key verifies a signature over a digest. -/
structure Attests (policy : BuilderPolicy) (height : Nat) (digest : Bytes 32)
    (signer : BuilderKey × Key) : Prop where
  listed : signer.1 ∈ policy.builders
  active : signer.1.activeAt height = true
  key : parsePublicKey scheme signer.1.publicKey = .ok signer.2
  verifies : ∃ signature, scheme.verifyTransaction signer.2 digest signature = .ok ()

theorem verifyStatement_eq_ok {scheme : KeyScheme Key} {contentRoot name : String}
    {digest : Bytes 32} {file : SignatureFile}
    (h : verifyStatement scheme policy contentRoot height digest file = .ok name) :
    file.name = utf8 s!"{name}.toml" ∧
      ∃ signer, signer.1.name = name ∧ Attests scheme policy height digest signer := by
  simp only [verifyStatement, bind_eq_ok, return_eq_ok] at h
  obtain ⟨statement, -, _, hvalid, key, hkey, signature, -, _, hverify, rfl⟩ := h
  simp only [BuilderSignature.validate, bind_eq_ok, ensure_eq_ok] at hvalid
  obtain ⟨_, -, _, -, _, -, hfile⟩ := hvalid
  refine ⟨hfile, ?_⟩
  unfold BuilderPolicy.activeKey at hkey
  split at hkey
  · rename_i builder hfind
    have hbuilder := find?_some hfind
    rw [Bool.and_eq_true, beq_iff_eq] at hbuilder
    refine ⟨(builder, key), hbuilder.1, mem_of_find?_eq_some hfind, hbuilder.2, hkey, signature, ?_⟩
    exact mapError_eq_ok.1 hverify
  · cases hkey

theorem nodup_of_verifyStatement {scheme : KeyScheme Key} {contentRoot : String} {digest : Bytes 32}
    {files : List SignatureFile} {names : List String} (hfiles : (files.map (·.name)).Nodup)
    (h : files.mapM (verifyStatement scheme policy contentRoot height digest) = .ok names) :
    names.Nodup ∧ ∃ signers : List (BuilderKey × Key), signers.map (·.1.name) = names ∧
      ∀ signer ∈ signers, Attests scheme policy height digest signer := by
  induction files generalizing names with
  | nil =>
    obtain rfl : names = [] := by simpa using h.symm
    exact ⟨nodup_nil, [], rfl, nofun⟩
  | cons file files ih =>
    simp only [mapM_cons, bind_eq_ok, return_eq_ok] at h
    obtain ⟨name, hname, rest, hrest, rfl⟩ := h
    obtain ⟨hnot, hfiles⟩ := nodup_cons.1 hfiles
    obtain ⟨hnodup, signers, hsigners, hattest⟩ := ih hfiles hrest
    obtain ⟨hfile, signer, hsigner, hattests⟩ := verifyStatement_eq_ok hname
    refine ⟨nodup_cons.2 ⟨fun hmem => hnot ?_, hnodup⟩, signer :: signers,
      by rw [map_cons, hsigner, hsigners], ?_⟩
    · -- Another file by the same builder has the same name.
      obtain ⟨other, hother, hverified⟩ := mem_of_mapM_ok hrest hmem
      refine mem_map.2 ⟨other, hother, ?_⟩
      exact (verifyStatement_eq_ok hverified).1.trans hfile.symm
    · intro other hother
      rcases mem_cons.1 hother with rfl | hother
      · exact hattests
      · exact hattest other hother

/-- Where the signatures of a directory are accepted, as many builders as the policy asks for have signed
the content root, each under another name and with another key, active at the height; and in a policy
that is accepted no builder has two keys at a time and no key is listed twice. -/
theorem verified_builders_independent :
    (∀ (sha256 : List UInt8 → Bytes 32) (contentRoot : String) (height : Nat) (policy : BuilderPolicy)
      (files : List SignatureFile) (verified : VerifiedBuilders),
      (files.map (·.name)).Nodup →
      verifyBuilderSignatures scheme sha256 contentRoot height policy (some files) = .ok verified →
      0 < policy.requiredSignatures ∧
      ∃ digest, signatureDigest sha256 contentRoot = .ok digest ∧
      ∃ signers : List (BuilderKey × Key), policy.requiredSignatures ≤ signers.length ∧
        (signers.map (·.1.name)).Nodup ∧ (signers.map (·.2)).Nodup ∧
        ∀ signer ∈ signers, Attests scheme policy height digest signer) ∧
    ∀ policy : BuilderPolicy, policy.validate scheme = .ok () →
      policy.builders.Pairwise (BuilderKey.Apart scheme) := by
  refine ⟨fun sha256 contentRoot height policy files verified hfiles h => ?_,
    fun policy h => BuilderPolicy.validate_pairwise h⟩
  simp only [verifyBuilderSignatures, bind_eq_ok, ensure_eq_ok] at h
  obtain ⟨_, hpolicy, _, -, entries, hentries, digest, hdigest, names, hnames, _, henough, -⟩ := h
  simp only [signatureFiles, okOr_some, ok_bind, bind_eq_ok, return_eq_ok] at hentries
  obtain ⟨_, -, rfl⟩ := hentries
  have hperm := perm_insertionSort (fun entry entry' : SignatureFile => entry.name ≤ entry'.name) files
  have hsorted := (hperm.map (·.name)).nodup_iff.2 hfiles
  obtain ⟨hnodup, signers, rfl, hattest⟩ := nodup_of_verifyStatement hsorted hnames
  refine ⟨?_, digest, hdigest, signers, by simpa using henough, hnodup, ?_, hattest⟩
  · simp only [BuilderPolicy.validate, bind_eq_ok, ensure_eq_ok] at hpolicy
    obtain ⟨_, -, _, hpositive, -⟩ := hpolicy
    exact Nat.pos_of_ne_zero hpositive
  · -- Signers with one key are one entry, and have one name.
    refine List.Nodup.map_on (fun signer hsigner signer' hsigner' hkey => ?_) (List.Nodup.of_map _ hnodup)
    have hone := BuilderPolicy.eq_of_key_eq hpolicy (hattest signer hsigner).listed
      (hattest signer' hsigner').listed (hattest signer hsigner).key
      (hkey ▸ (hattest signer' hsigner').key)
    exact Prod.ext hone hkey

end Policy

/-! ## Two builders -/

/-- Every 33 bytes are a key, and every signature is valid. -/
def plainKeys : KeyScheme (List UInt8) where
  fromBytes bytes := .ok bytes
  toBytesCompressed key := key
  verifyTransaction _ _ _ := .ok ()

/-- The first builder has changed its key at height 100. -/
def twoBuilders : BuilderPolicy where
  schema := policySchema
  requiredSignatures := 2
  builders := [
    ⟨"ada", ofAscii (hexText (replicate 33 2)), 0, some 99, none⟩,
    ⟨"ada", ofAscii (hexText (replicate 33 3)), 100, none, none⟩,
    ⟨"bob", ofAscii (hexText (replicate 33 4)), 0, none, some 200⟩]

def zeroRoot : String := ofAscii (hexText (replicate 32 0))

def signatureBy (builder : String) : SignatureFile :=
  ⟨utf8 (builder ++ ".toml"), true,
    .ok ⟨signatureSchema, builder, zeroRoot, ofAscii (hexText (replicate 65 0))⟩⟩

theorem verified_builders_independent_at_150 :
    ∃ signers : List (BuilderKey × List UInt8), 2 ≤ signers.length ∧
      (signers.map (·.1.name)).Nodup ∧ (signers.map (·.2)).Nodup ∧
      ∀ signer ∈ signers, Attests plainKeys twoBuilders 150
        ((fun _ => Bytes.zero 32) (signatureDomain ++ replicate 32 0)) signer := by
  obtain ⟨-, digest, hdigest, hsigners⟩ := (verified_builders_independent plainKeys).1
    (fun _ => Bytes.zero 32) zeroRoot 150 twoBuilders [signatureBy "bob", signatureBy "ada"]
    ⟨zeroRoot, ["ada", "bob"]⟩ (by decide +kernel) (by decide +kernel)
  obtain rfl : Bytes.zero 32 = digest := by
    have hzero : signatureDigest (fun _ => Bytes.zero 32) zeroRoot = .ok (Bytes.zero 32) := by
      decide +kernel
    exact Except.ok.inj (hzero.symm.trans hdigest)
  exact hsigners

end NanoStacks.Checkpoint
