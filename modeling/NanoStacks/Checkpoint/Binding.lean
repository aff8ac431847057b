import NanoStacks.Checkpoint.Walk
import NanoStacks.Lib.Delimited

/-!
# What a content root binds

The content root of a verified bundle determines its manifest and, up to a collision of the digest,
every file under the directory. The claims and the files are written so that they can be read back,
though no count of the files is written (`contentBytes_inj`).

* `content_root_binds`: equal roots of verified directories, and the verification of what was built.
-/

namespace NanoStacks.Checkpoint

open Result CheckpointBundleManifest List Directory

/-! ## Reading the content back -/

/-- A digest as it is written in a manifest. -/
@[mk_iff isDigest_iff]
structure IsDigest (text : String) : Prop where
  length : (utf8 text).length = 32 * 2
  lower : ∀ c ∈ utf8 text, IsLowerHex c

theorem fixedHex_eq_ok {name text : String} :
    fixedHex name (utf8 text) 32 = .ok () ↔ IsDigest text := by
  simp [fixedHex, isDigest_iff, IsLowerHex, forall_and, and_assoc]

theorem isDigest_hex (digest : Bytes 32) : IsDigest digest.hex where
  length := by rw [utf8_hex, length_hexText, digest.length_toList]
  lower c hc := isLowerHex_hexText (utf8_hex digest ▸ hc)

theorem IsDigest.digestBytes {text : String} (h : IsDigest text) :
    (Checkpoint.digestBytes text).length = 32 ∧ hexText (Checkpoint.digestBytes text) = utf8 text := by
  obtain ⟨bytes, hbytes, hlength⟩ := exists_unhex h.lower (n := 32) (by rw [h.length])
  rw [Checkpoint.digestBytes, hbytes]
  exact ⟨hlength, hexText_of_unhex h.lower hbytes⟩

theorem delimited_digestBytes : Delimited digestBytes IsDigest :=
  Delimited.ofWidth (fun _ h => h.digestBytes.1) fun text text' h h' heq => by
    apply utf8_inj
    rw [← h.digestBytes.2, heq, h'.digestBytes.2]

theorem delimited_updateString :
    Delimited updateString fun value => (utf8 value).length < 256 ^ 8 :=
  Delimited.measured 8 (fun _ h => h) fun _ _ _ _ h => utf8_inj h

/-- The fields of a listed file are within their widths, and its digests are digests. -/
structure BundleFile.Sound (file : BundleFile) : Prop where
  path : (utf8 file.path).length < 256 ^ 8
  size : file.size < 256 ^ 8
  sha256 : IsDigest file.sha256
  chunks : ∀ chunk ∈ file.chunks, IsDigest chunk
  count : file.chunks.length = chunkCount file.size

theorem chunkCount_le (size : Nat) : chunkCount size ≤ size := by
  unfold chunkCount chunkBytes
  omega

theorem delimited_fileBytes : Delimited fileBytes BundleFile.Sound := by
  intro file file' x y h h' heq
  have hcount : file.chunks.length < 256 ^ 8 := by
    rw [h.count]
    exact (chunkCount_le _).trans_lt h.size
  have hcount' : file'.chunks.length < 256 ^ 8 := by
    rw [h'.count]
    exact (chunkCount_le _).trans_lt h'.size
  simp only [fileBytes, append_assoc] at heq
  obtain ⟨hpath, heq⟩ := delimited_updateString h.path h'.path heq
  obtain ⟨hsize, heq⟩ := delimited_toBe 8 h.size h'.size heq
  obtain ⟨hsha256, heq⟩ := delimited_digestBytes h.sha256 h'.sha256 heq
  obtain ⟨hlength, heq⟩ := delimited_toBe 8 hcount hcount' heq
  obtain ⟨hchunks, hrest⟩ := delimited_digestBytes.flatMap_of_length hlength h.chunks h'.chunks heq
  cases file
  cases file'
  simp_all

theorem fileBytes_ne_nil (file : BundleFile) : fileBytes file ≠ [] := by
  intro h
  have hlength := congrArg length h
  simp [fileBytes, updateString] at hlength

/-- The fields of claims are within their widths. -/
structure BundleClaims.Fits (claims : BundleClaims) : Prop where
  stateFormat : (utf8 claims.stateFormat).length < 256 ^ 8
  checkpointStacksHeight : claims.checkpointStacksHeight < 256 ^ 8
  sourceStateId : (utf8 claims.sourceStateId).length < 256 ^ 8
  publishedStateIndexRoot : (utf8 claims.publishedStateIndexRoot).length < 256 ^ 8
  bitcoinHeight : claims.bitcoinHeight < 256 ^ 8
  bitcoinBlockHash : (utf8 claims.bitcoinBlockHash).length < 256 ^ 8
  attestingBlockId : (utf8 claims.attestingBlockId).length < 256 ^ 8
  signerWeight : claims.signerWeight < 256 ^ 4
  approvalThreshold : claims.approvalThreshold < 256 ^ 4
  semanticEpoch : (utf8 claims.semanticEpoch).length < 256 ^ 8
  compilerIdentity : (utf8 claims.compilerIdentity).length < 256 ^ 8
  profileFingerprint : (utf8 claims.profileFingerprint).length < 256 ^ 8

theorem delimited_claimBytes : Delimited claimBytes BundleClaims.Fits := by
  intro a b x y ha hb heq
  simp only [claimBytes, append_assoc] at heq
  obtain ⟨h₁, heq⟩ := delimited_updateString ha.stateFormat hb.stateFormat heq
  obtain ⟨h₂, heq⟩ := delimited_toBe 8 ha.checkpointStacksHeight hb.checkpointStacksHeight heq
  obtain ⟨h₃, heq⟩ := delimited_updateString ha.sourceStateId hb.sourceStateId heq
  obtain ⟨h₄, heq⟩ := delimited_updateString ha.publishedStateIndexRoot hb.publishedStateIndexRoot heq
  obtain ⟨h₅, heq⟩ := delimited_toBe 8 ha.bitcoinHeight hb.bitcoinHeight heq
  obtain ⟨h₆, heq⟩ := delimited_updateString ha.bitcoinBlockHash hb.bitcoinBlockHash heq
  obtain ⟨h₇, heq⟩ := delimited_updateString ha.attestingBlockId hb.attestingBlockId heq
  obtain ⟨h₈, heq⟩ := delimited_toBe 4 ha.signerWeight hb.signerWeight heq
  obtain ⟨h₉, heq⟩ := delimited_toBe 4 ha.approvalThreshold hb.approvalThreshold heq
  obtain ⟨h₁₀, heq⟩ := delimited_updateString ha.semanticEpoch hb.semanticEpoch heq
  obtain ⟨h₁₁, heq⟩ := delimited_updateString ha.compilerIdentity hb.compilerIdentity heq
  obtain ⟨h₁₂, heq⟩ := delimited_updateString ha.profileFingerprint hb.profileFingerprint heq
  refine ⟨?_, heq⟩
  cases a
  cases b
  simp_all

theorem contentBytes_inj {claims claims' : BundleClaims} {files files' : List BundleFile}
    (hclaims : claims.Fits) (hclaims' : claims'.Fits) (hfiles : ∀ file ∈ files, file.Sound)
    (hfiles' : ∀ file ∈ files', file.Sound)
    (h : contentBytes claims files = contentBytes claims' files') :
    claims = claims' ∧ files = files' := by
  simp only [contentBytes, append_assoc, append_cancel_left_eq] at h
  obtain ⟨rfl, hrest⟩ := delimited_claimBytes hclaims hclaims' h
  refine ⟨rfl, delimited_fileBytes.flatMap_inj (fun file _ => fileBytes_ne_nil file) hfiles hfiles' ?_⟩
  exact hrest

/-! ## Manifests -/

section Manifests

variable {sha256 : List UInt8 → Bytes 32}
  {parseManifest : List UInt8 → Except String CheckpointBundleManifest}
  {parseCheckpoint : List UInt8 → Except String CheckpointManifest}
  {reads reads' : String → Nat → Nat → Nat} {directory directory' : Directory}

/-- The texts and numbers of a manifest are within the widths of their types. -/
structure CheckpointBundleManifest.Fits (manifest : CheckpointBundleManifest) : Prop where
  claims : manifest.checkpoint.Fits
  paths : ∀ file ∈ manifest.files, (utf8 file.path).length < 256 ^ 8
  sizes : ∀ file ∈ manifest.files, file.size < 256 ^ 8

theorem forM_fixedHex_eq_ok {chunks : List String} :
    (chunks.forM fun chunk => fixedHex "chunk sha256" (utf8 chunk) 32) = .ok () ↔
      ∀ chunk ∈ chunks, IsDigest chunk := by
  induction chunks with
  | nil => exact ⟨fun _ => nofun, fun _ => rfl⟩
  | cons chunk chunks ih =>
    simp only [List.forM, bind_eq_ok, Unique.exists_iff, PUnit.default_eq_unit, fixedHex_eq_ok, ih,
      forall_mem_cons]

variable {files : List BundleFile}

theorem validateFiles_eq_ok {previous : Option String} : validateFiles previous files = .ok () ↔
    (∀ file ∈ files, validatePath file.path = .ok () ∧ IsDigest file.sha256 ∧
      (∀ chunk ∈ file.chunks, IsDigest chunk) ∧ file.chunks.length = chunkCount file.size) ∧
    ((previous.toList ++ files.map (·.path)).map utf8).IsChain (· < ·) := by
  induction files generalizing previous with
  | nil => cases previous <;> simp [validateFiles]
  | cons file files ih =>
    simp only [validateFiles, bind_eq_ok, Unique.exists_iff, PUnit.default_eq_unit, ensure_eq_ok,
      fixedHex_eq_ok, forM_fixedHex_eq_ok, ih]
    cases previous <;> simp [chunkCount] <;> tauto

theorem validateFiles_of_digests {entries : List (String × List UInt8)}
    (hdigests : entries.mapM (fun entry => digestFile sha256 (reads entry.1) entry.1 entry.2)
      = .ok files) (hsorted : entries.Pairwise fun left right => utf8 left.1 < utf8 right.1) :
    validateFiles none files = .ok () := by
  have hpaths : files.map (·.path) = entries.map (·.1) :=
    map_eq_of_mapM_ok (fun _ _ hfile => (digestFile_eq_ok hfile).2.1) hdigests
  refine validateFiles_eq_ok.2 ⟨fun file hfile => ?_, ?_⟩
  · obtain ⟨entry, -, hentry⟩ := mem_of_mapM_ok hdigests hfile
    obtain ⟨hpath, heq, -, hsha256, hchunks, hcount, -⟩ := digestFile_eq_ok hentry
    refine ⟨heq ▸ hpath, hsha256 ▸ isDigest_hex _, fun chunk hchunk => ?_, hcount⟩
    obtain ⟨piece, rfl⟩ := hchunks chunk hchunk
    exact isDigest_hex _
  · rw [hpaths]
    exact (pairwise_map.2 (pairwise_map.2 hsorted)).isChain

/-- Everything a verification has checked. -/
structure Verified (sha256 : List UInt8 → Bytes 32)
    (parseManifest : List UInt8 → Except String CheckpointBundleManifest)
    (reads : String → Nat → Nat → Nat) (directory : Directory) (manifest : CheckpointBundleManifest) :
    Prop where
  parsed : ∃ text, parseManifest text = .ok manifest
  schema : manifest.schema = bundleSchema
  chunkBytes : manifest.chunkBytes = Checkpoint.chunkBytes
  files : validateFiles none manifest.files = .ok ()
  root : contentRoot sha256 manifest.checkpoint manifest.files = manifest.contentRoot
  listed : digestFiles sha256 reads directory = .ok manifest.files

variable {manifest : CheckpointBundleManifest}

theorem verified_of_verify
    (h : verify sha256 parseManifest parseCheckpoint reads directory = .ok manifest) :
    Verified sha256 parseManifest reads directory manifest := by
  simp only [verify, validate, bind_eq_ok, ensure_eq_ok] at h
  obtain ⟨_, hload, _, ⟨_, hschema, _, hchunkBytes, _, -, _, hfiles, hroot⟩, _, -, _, -, actual, hactual, _,
    rfl, ⟨⟩⟩ := h
  refine ⟨?_, hschema, hchunkBytes, hfiles, hroot, hactual⟩
  unfold load at hload
  split at hload
  · cases hload
  · exact ⟨_, mapError_eq_ok.1 hload⟩
  · cases hload

section

variable (h : Verified sha256 parseManifest reads directory manifest)

include h

theorem Verified.sound (hfits : manifest.Fits) : ∀ file ∈ manifest.files, file.Sound := by
  intro file hfile
  obtain ⟨-, hsha256, hchunks, hcount⟩ := (validateFiles_eq_ok.1 h.files).1 file hfile
  exact ⟨hfits.paths file hfile, hfits.sizes file hfile, hsha256, hchunks, hcount⟩

theorem Verified.manifest_eq {manifest' : CheckpointBundleManifest}
    (h' : Verified sha256 parseManifest reads' directory' manifest') (hfits : manifest.Fits)
    (hfits' : manifest'.Fits) {strings : Set (List UInt8)} (hinj : Set.InjOn sha256 strings)
    (hmem : contentBytes manifest.checkpoint manifest.files ∈ strings)
    (hmem' : contentBytes manifest'.checkpoint manifest'.files ∈ strings)
    (hroot : manifest.contentRoot = manifest'.contentRoot) : manifest = manifest' := by
  have hsame : contentRoot sha256 manifest.checkpoint manifest.files
      = contentRoot sha256 manifest'.checkpoint manifest'.files := by
    rw [h.root, h'.root, hroot]
  obtain ⟨hclaims, hfiles⟩ := contentBytes_inj hfits.claims hfits'.claims (h.sound hfits)
    (h'.sound hfits') (hinj hmem hmem' (Bytes.hex_inj hsame))
  have hschema := h.schema.trans h'.schema.symm
  have hchunkBytes := h.chunkBytes.trans h'.chunkBytes.symm
  cases manifest
  cases manifest'
  simp_all

end

/-- A directory is as another was, but for a manifest that is there now. -/
structure Unchanged (directory directory' : Directory) (text : List UInt8) : Prop where
  entries : ∀ path kind, path ≠ [.text bundleManifestFile] →
    (directory'.Entry path kind ↔ directory.Entry path kind)
  manifest : directory'.Entry [.text bundleManifestFile] (.file text)

variable {text : List UInt8}

theorem Unchanged.readable (h : Unchanged directory directory' text)
    (hdistinct' : directory'.Distinct) (hreadable : directory.Readable []) :
    directory'.Readable [] := by
  intro path kind hentry
  by_cases hpath : path = [.text bundleManifestFile]
  · subst hpath
    refine ⟨⟨_, portablePath_manifest⟩, .inr ⟨text, ?_⟩⟩
    have hfound := (find_eq_some hdistinct').2 hentry
    have hfound' := (find_eq_some hdistinct').2 h.manifest
    exact Option.some.inj (hfound.symm.trans hfound')
  · exact hreadable path kind ((h.entries path kind hpath).1 hentry)

instance : Std.Total fun left right : String × List UInt8 => pathLe left.1 right.1 :=
  ⟨fun _ _ => Std.le_total⟩

instance : IsTrans (String × List UInt8) fun left right => pathLe left.1 right.1 :=
  ⟨fun _ _ _ => List.le_trans⟩

section

variable (h : Unchanged directory directory' text)

include h

variable {found found' : List (String × List UInt8)}

theorem Unchanged.mem_found_iff (hfound : directory.collectFiles [] = .ok found)
    (hfound' : directory'.collectFiles [] = .ok found') (entry : String × List UInt8) :
    entry ∈ found' ↔ entry ∈ found := by
  obtain ⟨relative, bytes⟩ := entry
  rw [(walked_of_collectFiles hfound).mem_iff, (walked_of_collectFiles hfound').mem_iff]
  refine and_congr_right fun hne => exists_congr fun path => and_congr_left fun hpath => ?_
  refine h.entries path _ ?_
  rintro rfl
  exact hne (Except.ok.inj (hpath.symm.trans portablePath_manifest))

section

variable (hdistinct : directory.Distinct)

include hdistinct

section

variable (hdistinct' : directory'.Distinct)

include hdistinct'

theorem Unchanged.sorted_eq (hfound : directory.collectFiles [] = .ok found)
    (hfound' : directory'.collectFiles [] = .ok found') :
    found'.insertionSort (fun left right => pathLe left.1 right.1)
      = found.insertionSort (fun left right => pathLe left.1 right.1) := by
  have hnodup := nodup_collectFiles hdistinct hfound
  have hnodup' := nodup_collectFiles hdistinct' hfound'
  have hperm : found'.Perm found :=
    (perm_ext_iff_of_nodup hnodup'.of_map hnodup.of_map).2 (h.mem_found_iff hfound hfound')
  refine List.Perm.eq_of_pairwise (fun a b ha hb hle hge => ?_) (pairwise_insertionSort _ _)
    (pairwise_insertionSort _ _)
    ((perm_insertionSort _ _).trans (hperm.trans (perm_insertionSort _ _).symm))
  have hpath : a.1 = b.1 := utf8_inj (Std.le_antisymm hle hge)
  have ha' : a ∈ found := hperm.mem_iff.1 ((mem_insertionSort _).1 ha)
  exact inj_on_of_nodup_map hnodup ha' ((mem_insertionSort _).1 hb) hpath

theorem Unchanged.digestFiles (hfiles : digestFiles sha256 reads directory = .ok files)
    (reads' : String → Nat → Nat → Nat) :
    Checkpoint.digestFiles sha256 reads' directory' = .ok files ∧ validateFiles none files = .ok () := by
  obtain ⟨found, hfound, hlisted⟩ := digestFiles_eq_ok hfiles
  have hwalked := walked_of_collectFiles hfound
  obtain ⟨found', hfound'⟩ := exists_collectFiles.2 (h.readable hdistinct' hwalked.readable)
  have hnodup := nodup_collectFiles hdistinct hfound
  constructor
  · rw [Checkpoint.digestFiles, hfound', ok_bind, h.sorted_eq hdistinct hdistinct' hfound hfound',
      ← hlisted]
    congr 1
    funext entry
    exact digestFile_reads _ _
  · refine validateFiles_of_digests hlisted ?_
    have hsorted := pairwise_insertionSort
      (fun left right : String × List UInt8 => pathLe left.1 right.1) found
    have hdifferent : (found.insertionSort fun left right => pathLe left.1 right.1).Pairwise
        fun left right => left.1 ≠ right.1 := by
      have hperm := (perm_insertionSort (fun left right : String × List UInt8 =>
        pathLe left.1 right.1) found).map Prod.fst
      exact pairwise_map.1 (hperm.nodup_iff.2 hnodup)
    refine (hsorted.and hdifferent).imp fun {left right} hboth => ?_
    exact Std.lt_of_le_of_ne hboth.1 fun heq => hboth.2 (utf8_inj heq)

theorem Unchanged.loadCheckpoint :
    loadCheckpoint parseCheckpoint directory' = loadCheckpoint parseCheckpoint directory := by
  have hfind : directory'.find (.text manifestFile) = directory.find (.text manifestFile) := by
    refine Option.ext fun kind => ?_
    rw [find_eq_some hdistinct', find_eq_some hdistinct]
    exact h.entries _ _ (by decide)
  rw [Checkpoint.loadCheckpoint, Checkpoint.loadCheckpoint, hfind]

end

end

end

variable (sha256 parseManifest parseCheckpoint)

/-- Verified directories with one content root have one manifest and hold the same files, the manifest
aside, if the digest does not collide on the files and on what the roots are digests of. A directory
that is as it was when its manifest was built is verified with that manifest, however it is read.

What is parsed is within the widths of its types, and a directory lists no name twice. -/
theorem content_root_binds
    (hfits : ∀ text manifest, parseManifest text = .ok manifest → manifest.Fits) :
    (∀ reads reads' directory directory' manifest manifest',
      verify sha256 parseManifest parseCheckpoint reads directory = .ok manifest →
      verify sha256 parseManifest parseCheckpoint reads' directory' = .ok manifest' →
      Set.InjOn sha256 (directory.contents ∪ directory'.contents ∪
        {contentBytes manifest.checkpoint manifest.files,
          contentBytes manifest'.checkpoint manifest'.files}) →
      manifest.contentRoot = manifest'.contentRoot →
      manifest = manifest' ∧ ∀ path bytes, path ≠ [.text bundleManifestFile] →
        (directory.Entry path (.file bytes) ↔ directory'.Entry path (.file bytes))) ∧
    ∀ reads reads' directory directory' claims manifest text, directory.Distinct → directory'.Distinct →
      build sha256 parseCheckpoint reads directory claims = .ok manifest →
      parseManifest text = .ok manifest → Unchanged directory directory' text →
      verify sha256 parseManifest parseCheckpoint reads' directory' = .ok manifest := by
  constructor
  · intro reads reads' directory directory' manifest manifest' h h' hinj hroot
    have hverified := verified_of_verify h
    have hverified' := verified_of_verify h'
    obtain ⟨text, htext⟩ := hverified.parsed
    obtain ⟨text', htext'⟩ := hverified'.parsed
    have hsame := hverified.manifest_eq hverified' (hfits _ _ htext) (hfits _ _ htext') hinj
      (.inr (.inl rfl)) (.inr (.inr rfl)) hroot
    refine ⟨hsame, fun path bytes hpath => ?_⟩
    have hlisted := hverified.listed
    have hlisted' := hverified'.listed
    rw [← hsame] at hlisted'
    have hcontents : directory.contents ⊆ directory.contents ∪ directory'.contents ∪
        {contentBytes manifest.checkpoint manifest.files,
          contentBytes manifest'.checkpoint manifest'.files} := fun _ h => .inl (.inl h)
    have hcontents' : directory'.contents ⊆ directory.contents ∪ directory'.contents ∪
        {contentBytes manifest.checkpoint manifest.files,
          contentBytes manifest'.checkpoint manifest'.files} := fun _ h => .inl (.inr h)
    exact ⟨entry_of_listed_alike hlisted hlisted' hcontents hcontents' hinj hpath,
      entry_of_listed_alike hlisted' hlisted hcontents' hcontents hinj hpath⟩
  · intro reads reads' directory directory' claims manifest text hdistinct hdistinct' hbuild htext h
    simp only [build, bind_eq_ok] at hbuild
    obtain ⟨_, hclaims, checkpoint, hcheckpoint, _, hcheck, files, hfiles, ⟨⟩⟩ := hbuild
    obtain ⟨hlisted, hvalid⟩ := h.digestFiles hdistinct hdistinct' hfiles reads'
    have hload : load parseManifest directory' = .ok
        ⟨bundleSchema, chunkBytes, contentRoot sha256 claims files, claims, files⟩ := by
      rw [load, (find_eq_some hdistinct').2 h.manifest]
      exact mapError_eq_ok.2 htext
    rw [← h.loadCheckpoint hdistinct hdistinct'] at hcheckpoint
    simp only [verify, validate, hload, hclaims, hvalid,
      hcheckpoint, hcheck, hlisted, ok_bind, ensure_of_true, pure_eq_ok]

end Manifests

/-! ## A small bundle -/

/-- The end of a text and its length stand for its digest. -/
def lastBytes (text : List UInt8) : Bytes 32 :=
  ⟨toBe 32 (256 * ofBe text + text.length), length_toBe 32 _⟩

def smallClaims : BundleClaims where
  stateFormat := "stacks-core-marf-sqlite-v2"
  checkpointStacksHeight := 7
  sourceStateId := (Bytes.replicate 32 1).hex
  publishedStateIndexRoot := (Bytes.replicate 32 2).hex
  bitcoinHeight := 11
  bitcoinBlockHash := (Bytes.replicate 32 3).hex
  attestingBlockId := (Bytes.replicate 32 1).hex
  signerWeight := 7
  approvalThreshold := 6
  semanticEpoch := "Epoch40"
  compilerIdentity := "sha256:" ++ (Bytes.replicate 32 4).hex
  profileFingerprint := (Bytes.replicate 32 9).hex

def smallCheckpoint : CheckpointManifest :=
  ⟨"stacks-core-marf-sqlite-v2", 7, Bytes.replicate 32 1, Bytes.replicate 32 2, 11,
    some (Bytes.replicate 32 9)⟩

/-- Two files, one of them in a directory of its own. -/
def smallDirectory (rest : Directory) : Directory :=
  .directory (.text "sortition") (.file (.text "history.bin") [1, 2] .empty)
    (.file (.text manifestFile) [7] rest)

/-- The same files as they are read another time, and a manifest. -/
def publishedDirectory : Directory :=
  .file (.text manifestFile) [7] (.file (.text bundleManifestFile) [8]
    (.directory (.text "sortition") (.file (.text "history.bin") [1, 2] .empty) .empty))

def smallFiles : List BundleFile :=
  [⟨manifestFile, 1, (lastBytes [7]).hex, [(lastBytes [7]).hex]⟩,
    ⟨"sortition/history.bin", 2, (lastBytes [1, 2]).hex, [(lastBytes [1, 2]).hex]⟩]

def smallManifest : CheckpointBundleManifest :=
  ⟨bundleSchema, chunkBytes, contentRoot lastBytes smallClaims smallFiles, smallClaims, smallFiles⟩

def parseSmall (text : List UInt8) : Except String CheckpointBundleManifest :=
  if text = [8] then .ok smallManifest else .error "not a manifest"

theorem parseSmall_fits : ∀ text manifest, parseSmall text = .ok manifest → manifest.Fits := by
  intro text manifest h
  unfold parseSmall at h
  split_ifs at h
  obtain rfl := Except.ok.inj h
  refine ⟨⟨?_, ?_, ?_, ?_, ?_, ?_, ?_, ?_, ?_, ?_, ?_, ?_⟩, ?_, ?_⟩ <;> decide +kernel

theorem content_root_binds_small :
    verify lastBytes parseSmall (fun _ => .ok smallCheckpoint) (fun _ _ _ => 1)
        publishedDirectory = .ok smallManifest ∧
      ∀ path bytes, path ≠ [.text bundleManifestFile] →
        (publishedDirectory.Entry path (.file bytes) ↔
          (smallDirectory (.file (.text bundleManifestFile) [8] .empty)).Entry path (.file bytes)) := by
  have hbuild : build lastBytes (fun _ => .ok smallCheckpoint) (fun _ _ _ => 4)
      (smallDirectory .empty) smallClaims = .ok smallManifest := by
    decide +kernel
  have hempty : (smallDirectory .empty).Distinct := by
    simp [smallDirectory, Directory.Distinct, names, manifestFile]
  have hverify : verify lastBytes parseSmall (fun _ => .ok smallCheckpoint)
      (fun _ _ _ => 1) publishedDirectory = .ok smallManifest := by
    refine (content_root_binds lastBytes parseSmall (fun _ => .ok smallCheckpoint) parseSmall_fits).2
      (fun _ _ _ => 4) (fun _ _ _ => 1) (smallDirectory .empty) publishedDirectory smallClaims _ [8]
      hempty ?_ hbuild rfl ⟨fun path kind hpath => ?_, ?_⟩
    · simp [publishedDirectory, Directory.Distinct, names, manifestFile, bundleManifestFile]
    · simp only [publishedDirectory, smallDirectory, Directory.Entry, hpath, or_false, false_and, false_or]
      rw [or_comm, or_assoc]
    · exact .inr (.inl ⟨rfl, rfl⟩)
  refine ⟨hverify, ?_⟩
  have hagain : verify lastBytes parseSmall (fun _ => .ok smallCheckpoint)
      (fun _ _ _ => 9) (smallDirectory (.file (.text bundleManifestFile) [8] .empty))
        = .ok smallManifest := by
    refine (content_root_binds lastBytes parseSmall (fun _ => .ok smallCheckpoint) parseSmall_fits).2
      (fun _ _ _ => 4) (fun _ _ _ => 9) (smallDirectory .empty) _ smallClaims _ [8]
      hempty ?_ hbuild rfl ⟨fun path kind hpath => ?_, ?_⟩
    · simp [smallDirectory, Directory.Distinct, names, manifestFile, bundleManifestFile]
    · simp only [smallDirectory, Directory.Entry, hpath, or_false, false_and]
    · exact .inr (.inr (.inr (.inl ⟨rfl, rfl⟩)))
  refine ((content_root_binds lastBytes parseSmall (fun _ => .ok smallCheckpoint) parseSmall_fits).1
    _ _ _ _ _ _ hverify hagain ?_ rfl).2
  have hstrings : ∀ s ∈ publishedDirectory.contents ∪
      (smallDirectory (.file (.text bundleManifestFile) [8] .empty)).contents ∪
      {contentBytes smallClaims smallFiles, contentBytes smallClaims smallFiles},
      s ∈ [[7], [8], [1, 2], contentBytes smallClaims smallFiles] := by
    intro s hs
    simp [publishedDirectory, smallDirectory, contents, Directory.Entry, exists_or] at hs
    rcases hs with h | (h | h | h) | h | h | h <;> simp [h]
  have hapart : ∀ s ∈ [[7], [8], [1, 2], contentBytes smallClaims smallFiles],
      ∀ t ∈ [[7], [8], [1, 2], contentBytes smallClaims smallFiles],
        lastBytes s = lastBytes t → s = t := by
    decide +kernel
  exact fun s hs t ht heq => hapart s (hstrings s hs) t (hstrings t ht) heq

end NanoStacks.Checkpoint
