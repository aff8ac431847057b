import NanoStacks.Lib.Strings
import NanoStacks.Lib.Result
import Mathlib.Data.List.Sort

/-!
# Checkpoint bundles

A checkpoint directory carries a manifest that lists every file under it with its size and digests, and
whose content root is one digest over the claims and the list. `build` makes the manifest by walking the
directory, `verify` walks it again and compares.

A directory is what reading it gives, entry by entry and in whatever order it is read; the files do not
change meanwhile. How many bytes a single read answers is up to the operating system: `reads` says it
for each file, position and room in the buffer. The two texts in a directory that are parsed, its
manifest and `checkpoint.toml`, are parsed by parameters.
-/

namespace NanoStacks.Checkpoint

open Result

inductive BundleError
  | io
  | checkpoint (error : String)
  | invalid (reason : String)
  | missing (path : String)
  | extra (path : String)
  | changed (path : String)
  deriving DecidableEq

structure BundleClaims where
  stateFormat : String
  checkpointStacksHeight : Nat
  sourceStateId : String
  publishedStateIndexRoot : String
  bitcoinHeight : Nat
  bitcoinBlockHash : String
  attestingBlockId : String
  signerWeight : Nat
  approvalThreshold : Nat
  semanticEpoch : String
  compilerIdentity : String
  profileFingerprint : String
  deriving DecidableEq

/-- What `checkpoint.toml` says. -/
structure CheckpointManifest where
  format : String
  stacksHeight : Nat
  sourceStateId : Bytes 32
  stateIndexRoot : Bytes 32
  firstBitcoinHeight : Nat
  profileFingerprint : Option (Bytes 32)

structure BundleFile where
  path : String
  size : Nat
  sha256 : String
  chunks : List String
  deriving DecidableEq

structure CheckpointBundleManifest where
  schema : String
  chunkBytes : Nat
  contentRoot : String
  checkpoint : BundleClaims
  files : List BundleFile
  deriving DecidableEq

def bundleManifestFile : String := "checkpoint-bundle.toml"
def manifestFile : String := "checkpoint.toml"
def bundleSchema : String := "nano-stacks/checkpoint-bundle/v1"
def chunkBytes : Nat := 4 * 1024 * 1024

def contentDomain : List UInt8 := utf8 "nano-stacks/checkpoint-content/v1" ++ [0]

/-! ## Directories -/

/-- A name in the file system, which need not be a text. -/
inductive FileName
  | text (name : String)
  | notUtf8 (bytes : List UInt8)
  deriving DecidableEq

/-- The entries of a directory in the order they are read. -/
inductive Directory
  | empty
  | file (name : FileName) (bytes : List UInt8) (rest : Directory)
  | directory (name : FileName) (entries : Directory) (rest : Directory)
  | symlink (name : FileName) (rest : Directory)
  | special (name : FileName) (rest : Directory)

/-- What an entry is, apart from what is under it. -/
inductive EntryKind
  | file (bytes : List UInt8)
  | directory
  | symlink
  | special

/-- The entry of a directory under a name. -/
def Directory.find (name : FileName) : Directory → Option EntryKind
  | .empty => none
  | .file name' bytes rest => if name' = name then some (.file bytes) else rest.find name
  | .directory name' _ rest => if name' = name then some .directory else rest.find name
  | .symlink name' rest => if name' = name then some .symlink else rest.find name
  | .special name' rest => if name' = name then some .special else rest.find name

/-! ## Claims -/

def fixedHex (name : String) (value : List UInt8) (bytes : Nat) : Except BundleError Unit := do
  ensure (value.length = bytes * 2 ∧ value.all isAsciiHexdigit)
    (.invalid s!"{name} is not a {bytes}-byte hexadecimal value")
  ensure (value.any isAsciiUppercase = false) (.invalid s!"{name} is not lowercase")

/-- What follows a given start of a text. -/
def stripStart (start text : List UInt8) : Option (List UInt8) :=
  if text.take start.length = start then some (text.drop start.length) else none

namespace BundleClaims

def validate (claims : BundleClaims) : Except BundleError Unit := do
  ensure (claims.stateFormat ≠ "") (.invalid "state format is empty")
  fixedHex "source_state_id" (utf8 claims.sourceStateId) 32
  fixedHex "published_state_index_root" (utf8 claims.publishedStateIndexRoot) 32
  fixedHex "bitcoin_block_hash" (utf8 claims.bitcoinBlockHash) 32
  fixedHex "attesting_block_id" (utf8 claims.attestingBlockId) 32
  fixedHex "profile_fingerprint" (utf8 claims.profileFingerprint) 32
  ensure (claims.attestingBlockId = claims.sourceStateId)
    (.invalid "the attesting block is not the checkpoint state ID")
  ensure (claims.approvalThreshold ≠ 0 ∧ claims.approvalThreshold ≤ claims.signerWeight)
    (.invalid "the signer proof does not reach a nonzero approval threshold")
  ensure (claims.semanticEpoch = "Epoch40")
    (.invalid s!"unsupported semantic epoch {claims.semanticEpoch}")
  let compiler ← okOr (stripStart (utf8 "sha256:") (utf8 claims.compilerIdentity))
    (.invalid "compiler identity is not a SHA-256 digest")
  fixedHex "compiler_identity" compiler 32

def checkCheckpoint (claims : BundleClaims) (checkpoint : CheckpointManifest) :
    Except BundleError Unit :=
  ensure (claims.stateFormat = checkpoint.format ∧
      claims.checkpointStacksHeight = checkpoint.stacksHeight ∧
      claims.sourceStateId = checkpoint.sourceStateId.hex ∧
      claims.publishedStateIndexRoot = checkpoint.stateIndexRoot.hex ∧
      claims.bitcoinHeight = checkpoint.firstBitcoinHeight ∧
      checkpoint.profileFingerprint.map (·.hex) = some claims.profileFingerprint)
    (.invalid "bundle claims differ from checkpoint.toml")

end BundleClaims

/-! ## Walking a directory -/

def joinParts : List String → String
  | [] => ""
  | [part] => part
  | part :: rest => part ++ "/" ++ joinParts rest

/-- A path as an error shows it, up to the bytes that are not UTF-8. -/
def displayPath (path : List FileName) : String :=
  joinParts (path.map fun | .text name => name | .notUtf8 bytes => ofAscii bytes)

/-- One part of a path that is shown. -/
def portablePart (shown : String) : FileName → Except BundleError String
  | .notUtf8 _ => .error (.invalid s!"bundle path {shown} is not UTF-8")
  | .text part => do
    ensure (part ≠ "" ∧ 47 ∉ utf8 part ∧ 92 ∉ utf8 part ∧ part ≠ "." ∧ part ≠ "..")
      (.invalid s!"bundle path {shown} is not portable")
    return part

def portablePath (path : List FileName) : Except BundleError String := do
  let parts ← path.mapM (portablePart (displayPath path))
  ensure (joinParts parts ≠ "") (.invalid "bundle path is empty")
  return joinParts parts

/-- The files under a directory, with their paths from the root of the walk. -/
def Directory.collectFiles (parent : List FileName) :
    Directory → Except BundleError (List (String × List UInt8))
  | .empty => .ok []
  | .file name bytes rest => do
    let relative ← portablePath (parent ++ [name])
    let others ← rest.collectFiles parent
    return if relative = bundleManifestFile then others else (relative, bytes) :: others
  | .directory name entries rest => do
    let _ ← portablePath (parent ++ [name])
    let inner ← entries.collectFiles (parent ++ [name])
    let others ← rest.collectFiles parent
    return inner ++ others
  | .symlink name _ => do
    let relative ← portablePath (parent ++ [name])
    .error (.invalid s!"bundle contains symlink {relative}")
  | .special name _ => do
    let relative ← portablePath (parent ++ [name])
    .error (.invalid s!"bundle contains special file {relative}")

def validatePath (path : String) : Except BundleError Unit :=
  ensure (path ≠ "" ∧ (utf8 path).head? ≠ some 47 ∧
      (∀ part ∈ (utf8 path).splitOn 47,
        part ≠ [] ∧ part ≠ utf8 "." ∧ part ≠ utf8 ".." ∧ 92 ∉ part) ∧ path ≠ bundleManifestFile)
    (.invalid s!"bundle path {path.quote} is not a canonical payload path")

/-! ## Digesting a file -/

section Digest

variable (sha256 : List UInt8 → Bytes 32)

/-- The number of bytes one read answers: some, unless there are none left. -/
def readAt (reads : Nat → Nat → Nat) (bytes : List UInt8) (position room : Nat) : Nat :=
  min (max 1 (reads position room)) (min room (bytes.length - position))

/-- Read until the buffer is full or nothing is left. -/
def fillBuffer (reads : Nat → Nat → Nat) (bytes : List UInt8) (position : Nat) : Nat → Nat → Nat
  | 0, filled => filled
  | fuel + 1, filled =>
    if filled < chunkBytes then
      let read := readAt reads bytes (position + filled) (chunkBytes - filled)
      if read = 0 then filled else fillBuffer reads bytes position fuel (filled + read)
    else filled

/-- What a file's digest is made of so far: the bytes hashed, the chunks and their total size. -/
structure Digesting where
  hashed : List UInt8
  chunks : List String
  size : Nat

/-- A file is read in one more round than it has chunks. -/
def digestChunks (reads : Nat → Nat → Nat) (path : String) (bytes : List UInt8) :
    Nat → Digesting → Except BundleError Digesting
  | 0, state => .ok state
  | fuel + 1, state =>
    let filled := fillBuffer reads bytes state.size (bytes.length + 1) 0
    if filled = 0 then .ok state
    else do
      let chunk := (bytes.drop state.size).take filled
      ensure (state.size + filled < 2 ^ 64) (.invalid s!"{path} is too large")
      digestChunks reads path bytes fuel
        ⟨state.hashed ++ chunk, state.chunks ++ [(sha256 chunk).hex], state.size + filled⟩

def digestFile (reads : Nat → Nat → Nat) (path : String) (bytes : List UInt8) :
    Except BundleError BundleFile := do
  validatePath path
  let state ← digestChunks sha256 reads path bytes (bytes.length + 1) ⟨[], [], 0⟩
  ensure (state.size = bytes.length) (.changed path)
  return ⟨path, state.size, (sha256 state.hashed).hex, state.chunks⟩

/-- Paths in the order of their bytes. -/
def pathLe (path path' : String) : Prop := utf8 path ≤ utf8 path'

instance : DecidableRel pathLe := fun path path' => inferInstanceAs (Decidable (utf8 path ≤ utf8 path'))

def digestFiles (reads : String → Nat → Nat → Nat) (directory : Directory) :
    Except BundleError (List BundleFile) := do
  let paths ← directory.collectFiles []
  (paths.insertionSort fun left right => pathLe left.1 right.1).mapM fun (relative, bytes) =>
    digestFile sha256 (reads relative) relative bytes

/-! ## The content root -/

def updateString (value : String) : List UInt8 := toBe 8 (utf8 value).length ++ utf8 value

/-- The bytes of a digest that was validated. -/
def digestBytes (text : String) : List UInt8 := (unhex (utf8 text)).getD []

def claimBytes (checkpoint : BundleClaims) : List UInt8 :=
  updateString checkpoint.stateFormat ++ toBe 8 checkpoint.checkpointStacksHeight ++
    updateString checkpoint.sourceStateId ++ updateString checkpoint.publishedStateIndexRoot ++
    toBe 8 checkpoint.bitcoinHeight ++ updateString checkpoint.bitcoinBlockHash ++
    updateString checkpoint.attestingBlockId ++ toBe 4 checkpoint.signerWeight ++
    toBe 4 checkpoint.approvalThreshold ++ updateString checkpoint.semanticEpoch ++
    updateString checkpoint.compilerIdentity ++ updateString checkpoint.profileFingerprint

def fileBytes (file : BundleFile) : List UInt8 :=
  updateString file.path ++ toBe 8 file.size ++ digestBytes file.sha256 ++
    toBe 8 file.chunks.length ++ file.chunks.flatMap digestBytes

/-- What the content root is the digest of. -/
def contentBytes (checkpoint : BundleClaims) (files : List BundleFile) : List UInt8 :=
  contentDomain ++ claimBytes checkpoint ++ files.flatMap fileBytes

def contentRoot (checkpoint : BundleClaims) (files : List BundleFile) : String :=
  (sha256 (contentBytes checkpoint files)).hex

/-! ## Manifests -/

def validateFiles (previous : Option String) : List BundleFile → Except BundleError Unit
  | [] => .ok ()
  | file :: rest => do
    validatePath file.path
    ensure (∀ prior ∈ previous, utf8 prior < utf8 file.path)
      (.invalid "bundle file paths are duplicated or not sorted")
    fixedHex "file sha256" (utf8 file.sha256) 32
    file.chunks.forM fun chunk => fixedHex "chunk sha256" (utf8 chunk) 32
    ensure (file.chunks.length = (file.size + chunkBytes - 1) / chunkBytes) (.invalid
      s!"{file.path} has {file.chunks.length} chunk hashes for {file.size} bytes")
    validateFiles (some file.path) rest

/-- The first path that only one of two lists has. -/
def differentPath : List BundleFile → List BundleFile → Option BundleError
  | e :: expected, a :: actual =>
    if e.path = a.path then differentPath expected actual
    else if utf8 e.path < utf8 a.path then some (.missing e.path)
    else some (.extra a.path)
  | e :: _, [] => some (.missing e.path)
  | [], a :: _ => some (.extra a.path)
  | [], [] => none

def describeDifference (expected actual : List BundleFile) : BundleError :=
  (differentPath expected actual).getD <|
    match (expected.zip actual).find? fun (file, found) => file ≠ found with
    | some (file, _) => .changed file.path
    | none => .changed "content root"

variable (parseManifest : List UInt8 → Except String CheckpointBundleManifest)
  (parseCheckpoint : List UInt8 → Except String CheckpointManifest)

def loadCheckpoint (directory : Directory) : Except BundleError CheckpointManifest :=
  match directory.find (.text manifestFile) with
  | some (.file bytes) => (parseCheckpoint bytes).mapError .checkpoint
  | _ => .error .io

namespace CheckpointBundleManifest

def build (reads : String → Nat → Nat → Nat) (directory : Directory) (checkpoint : BundleClaims) :
    Except BundleError CheckpointBundleManifest := do
  checkpoint.validate
  checkpoint.checkCheckpoint (← loadCheckpoint parseCheckpoint directory)
  let files ← digestFiles sha256 reads directory
  return ⟨bundleSchema, Checkpoint.chunkBytes, Checkpoint.contentRoot sha256 checkpoint files, checkpoint, files⟩

/-- The error names the file without the directory, whose own path is not modelled. -/
def load (directory : Directory) : Except BundleError CheckpointBundleManifest :=
  match directory.find (.text bundleManifestFile) with
  | none => .error .io
  | some (.file bytes) => (parseManifest bytes).mapError .invalid
  | some _ => .error (.invalid s!"{bundleManifestFile} is not a regular manifest file")

def validate (manifest : CheckpointBundleManifest) : Except BundleError Unit := do
  ensure (manifest.schema = bundleSchema) (.invalid s!"unsupported bundle schema {manifest.schema}")
  ensure (manifest.chunkBytes = Checkpoint.chunkBytes) (.invalid
    s!"bundle uses {manifest.chunkBytes}-byte chunks instead of {Checkpoint.chunkBytes}")
  manifest.checkpoint.validate
  validateFiles none manifest.files
  let actual := Checkpoint.contentRoot sha256 manifest.checkpoint manifest.files
  ensure (actual = manifest.contentRoot)
    (.invalid s!"content root {manifest.contentRoot} does not match {actual}")

def verify (reads : String → Nat → Nat → Nat) (directory : Directory) :
    Except BundleError CheckpointBundleManifest := do
  let manifest ← load parseManifest directory
  manifest.validate sha256
  manifest.checkpoint.checkCheckpoint (← loadCheckpoint parseCheckpoint directory)
  let actual ← digestFiles sha256 reads directory
  ensure (actual = manifest.files) (describeDifference manifest.files actual)
  return manifest

end CheckpointBundleManifest

end Digest

end NanoStacks.Checkpoint
