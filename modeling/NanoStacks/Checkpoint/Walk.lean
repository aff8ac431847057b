import NanoStacks.Checkpoint.Bundle
import NanoStacks.Lib.Texts
import Mathlib.Data.Set.Function

/-!
# What a walk over a checkpoint finds

How a file is cut does not depend on how it is read: the buffer is filled with all it can hold
(`fillBuffer_eq`), so each chunk but the last is full (`digestFile_eq_ok`). A walk finds each file once,
under a path that determines it (`portablePath_inj`, `Directory.walked_of_collectFiles`), so that two
directories with one list of digests hold the same files (`entry_of_listed_alike`).
-/

namespace NanoStacks.Checkpoint

open Result List

/-! ## Reading a file -/

section Reading

variable {reads : Nat → Nat → Nat} {bytes : List UInt8} {position filled fuel : Nat}

theorem chunkBytes_pos : 0 < chunkBytes := by decide

theorem readAt_eq_zero {room : Nat} (hroom : 0 < room) :
    readAt reads bytes position room = 0 ↔ bytes.length ≤ position := by
  unfold readAt
  omega

theorem readAt_le {room : Nat} :
    readAt reads bytes position room ≤ min room (bytes.length - position) :=
  Nat.min_le_right _ _

theorem fillBuffer_eq (hfilled : filled ≤ min chunkBytes (bytes.length - position))
    (hfuel : min chunkBytes (bytes.length - position) - filled < fuel) :
    fillBuffer reads bytes position fuel filled = min chunkBytes (bytes.length - position) := by
  induction fuel generalizing filled with
  | zero => omega
  | succ fuel ih =>
    rw [fillBuffer]
    dsimp only
    by_cases hroom : filled < chunkBytes
    · rw [if_pos hroom]
      have hzero : readAt reads bytes (position + filled) (chunkBytes - filled) = 0 ↔
          bytes.length ≤ position + filled := readAt_eq_zero (by omega)
      have hle : readAt reads bytes (position + filled) (chunkBytes - filled)
          ≤ min (chunkBytes - filled) (bytes.length - (position + filled)) := readAt_le
      split_ifs with hnone
      · rw [hzero] at hnone
        omega
      · exact ih (by omega) (by omega)
    · rw [if_neg hroom]
      omega

theorem fillBuffer_round : fillBuffer reads bytes position (bytes.length + 1) 0
    = min chunkBytes (bytes.length - position) :=
  fillBuffer_eq (Nat.zero_le _) (by omega)

end Reading

section Digesting

variable {sha256 : List UInt8 → Bytes 32} {reads reads' : Nat → Nat → Nat} {path : String}
  {bytes : List UInt8} {fuel : Nat} {state state' : Digesting} {file : BundleFile}

theorem digestChunks_reads (reads reads' : Nat → Nat → Nat) :
    digestChunks sha256 reads path bytes fuel state
      = digestChunks sha256 reads' path bytes fuel state := by
  induction fuel generalizing state with
  | zero => rfl
  | succ fuel ih =>
    rw [digestChunks, digestChunks]
    dsimp only
    rw [fillBuffer_round, fillBuffer_round]
    split_ifs with hnone
    · rfl
    · simp only [ih]

theorem digestFile_reads (reads reads' : Nat → Nat → Nat) :
    digestFile sha256 reads path bytes = digestFile sha256 reads' path bytes := by
  rw [digestFile, digestFile, digestChunks_reads reads reads']

/-- The number of chunks of a size. -/
def chunkCount (size : Nat) : Nat := (size + chunkBytes - 1) / chunkBytes

theorem chunkCount_round {left : Nat} (h : left ≠ 0) :
    chunkCount left = chunkCount (left - min chunkBytes left) + 1 := by
  unfold chunkCount chunkBytes
  omega

/-- What a file's digest is made of: the file as far as it was read. -/
structure Digesting.Of (sha256 : List UInt8 → Bytes 32) (bytes : List UInt8) (state : Digesting) :
    Prop where
  size_le : state.size ≤ bytes.length
  hashed : state.hashed = bytes.take state.size
  chunks : ∀ chunk ∈ state.chunks, ∃ piece, chunk = (sha256 piece).hex
  count : state.chunks.length + chunkCount (bytes.length - state.size) = chunkCount bytes.length
  bounded : state.size < 2 ^ 64

/-- With a round for each byte the file is read to its end. -/
theorem digestChunks_eq_ok (hstate : state.Of sha256 bytes) (hfuel : bytes.length - state.size < fuel)
    (h : digestChunks sha256 reads path bytes fuel state = .ok state') :
    state'.Of sha256 bytes ∧ state'.size = bytes.length := by
  induction fuel generalizing state with
  | zero => omega
  | succ fuel ih =>
    rw [digestChunks] at h
    dsimp only at h
    rw [fillBuffer_round] at h
    have hle := hstate.size_le
    have hpos := chunkBytes_pos
    split_ifs at h with hnone
    · obtain rfl := Except.ok.inj h
      exact ⟨hstate, by omega⟩
    · simp only [bind_eq_ok, ensure_eq_ok] at h
      obtain ⟨-, hfits, h⟩ := h
      refine ih ⟨?_, ?_, ?_, ?_, hfits⟩ ?_ h
      · dsimp only
        omega
      · dsimp only
        rw [hstate.hashed, take_add]
      · intro chunk hchunk
        rcases mem_append.1 hchunk with hchunk | hchunk
        · exact hstate.chunks chunk hchunk
        · exact ⟨_, mem_singleton.1 hchunk⟩
      · have hcount := hstate.count
        have hround : chunkCount (bytes.length - state.size) = chunkCount (bytes.length - state.size
            - min chunkBytes (bytes.length - state.size)) + 1 := chunkCount_round (by omega)
        dsimp only
        rw [length_append, length_singleton, ← Nat.sub_sub]
        omega
      · dsimp only
        omega

theorem digestFile_eq_ok (h : digestFile sha256 reads path bytes = .ok file) :
    validatePath path = .ok () ∧ file.path = path ∧ file.size = bytes.length ∧
      file.sha256 = (sha256 bytes).hex ∧ (∀ chunk ∈ file.chunks, ∃ piece, chunk = (sha256 piece).hex) ∧
      file.chunks.length = chunkCount file.size ∧ file.size < 2 ^ 64 := by
  simp only [digestFile, bind_eq_ok, ensure_eq_ok, return_eq_ok] at h
  obtain ⟨_, hpath, state, hstate, _, hsize, rfl⟩ := h
  have hstart : Digesting.Of sha256 bytes ⟨[], [], 0⟩ :=
    ⟨Nat.zero_le _, rfl, by simp, by simp, by norm_num⟩
  obtain ⟨hof, -⟩ := digestChunks_eq_ok hstart (by dsimp only; omega) hstate
  have hcount := hof.count
  have hzero : chunkCount 0 = 0 := by decide
  refine ⟨hpath, rfl, hsize, ?_, hof.chunks, ?_, hof.bounded⟩
  · dsimp only
    rw [hof.hashed, hsize, take_length]
  · dsimp only
    rw [hsize, Nat.sub_self, hzero, Nat.add_zero] at hcount
    rw [hcount, hsize]

end Digesting

/-! ## Paths -/

/-- A name that can be a part of a portable path. -/
structure PortablePart (part : String) : Prop where
  nonempty : part ≠ ""
  slash : 47 ∉ utf8 part

variable {shown : String}

theorem portablePart_eq_ok {name : FileName} {part : String}
    (h : portablePart shown name = .ok part) : name = .text part ∧ PortablePart part := by
  cases name with
  | notUtf8 bytes => exact absurd h nofun
  | text text =>
    simp only [portablePart, bind_eq_ok, ensure_eq_ok, return_eq_ok] at h
    obtain ⟨-, ⟨hnonempty, hslash, -⟩, rfl⟩ := h
    exact ⟨rfl, hnonempty, hslash⟩

theorem mapM_portablePart_eq_ok {path : List FileName} {parts : List String}
    (h : path.mapM (portablePart shown) = .ok parts) :
    path = parts.map .text ∧ ∀ part ∈ parts, PortablePart part := by
  induction path generalizing parts with
  | nil =>
    obtain rfl : parts = [] := by simpa using h.symm
    exact ⟨rfl, nofun⟩
  | cons name path ih =>
    simp only [mapM_cons, bind_eq_ok, return_eq_ok] at h
    obtain ⟨part, hpart, rest, hrest, rfl⟩ := h
    obtain ⟨rfl, hportable⟩ := portablePart_eq_ok hpart
    obtain ⟨rfl, hall⟩ := ih hrest
    refine ⟨rfl, fun other hother => ?_⟩
    rcases mem_cons.1 hother with rfl | hother
    · exact hportable
    · exact hall other hother

theorem utf8_joinParts_cons (part next : String) (rest : List String) :
    utf8 (joinParts (part :: next :: rest)) = utf8 part ++ 47 :: utf8 (joinParts (next :: rest)) := by
  have hslash : utf8 "/" = [47] := by decide
  rw [joinParts, utf8_append, utf8_append, hslash, append_assoc, singleton_append]
  exact nofun

theorem joinParts_inj {parts parts' : List String} (h : ∀ part ∈ parts, PortablePart part)
    (h' : ∀ part ∈ parts', PortablePart part) (hne : parts ≠ []) (hne' : parts' ≠ [])
    (heq : utf8 (joinParts parts) = utf8 (joinParts parts')) : parts = parts' := by
  induction parts generalizing parts' with
  | nil => exact absurd rfl hne
  | cons part rest ih =>
    obtain _ | ⟨part', rest'⟩ := parts'
    · exact absurd rfl hne'
    have hpart := (h part mem_cons_self).slash
    have hpart' := (h' part' mem_cons_self).slash
    cases rest with
    | nil =>
      cases rest' with
      | nil =>
        have hsame : part = part' := utf8_inj heq
        rw [hsame]
      | cons next' rest' =>
        rw [utf8_joinParts_cons, joinParts] at heq
        exact absurd (by simp [heq]) hpart
    | cons next rest =>
      cases rest' with
      | nil =>
        rw [utf8_joinParts_cons, joinParts] at heq
        exact absurd (by simp [← heq]) hpart'
      | cons next' rest' =>
        rw [utf8_joinParts_cons, utf8_joinParts_cons] at heq
        obtain ⟨hfirst, hrest⟩ := Texts.append_cons_inj hpart hpart' heq
        rw [utf8_inj hfirst, ih (fun p hp => h p (mem_cons_of_mem _ hp))
          (fun p hp => h' p (mem_cons_of_mem _ hp)) nofun nofun hrest]

theorem portablePath_inj {path path' : List FileName} {relative : String}
    (h : portablePath path = .ok relative) (h' : portablePath path' = .ok relative) : path = path' := by
  simp only [portablePath, bind_eq_ok, ensure_eq_ok, return_eq_ok] at h h'
  obtain ⟨parts, hparts, _, hne, rfl⟩ := h
  obtain ⟨parts', hparts', _, hne', heq⟩ := h'
  obtain ⟨rfl, hall⟩ := mapM_portablePart_eq_ok hparts
  obtain ⟨rfl, hall'⟩ := mapM_portablePart_eq_ok hparts'
  rw [joinParts_inj hall hall' ?_ ?_ (by rw [heq])]
  · rintro rfl
    exact hne rfl
  · rintro rfl
    exact hne' rfl

/-! ## Walking -/

namespace Directory

/-- The entry under a path is of some kind. -/
def Entry : Directory → List FileName → EntryKind → Prop
  | .empty, _, _ => False
  | .file name bytes rest, path, kind => (path = [name] ∧ kind = .file bytes) ∨ rest.Entry path kind
  | .directory name entries rest, path, kind =>
    (path = [name] ∧ kind = .directory) ∨ (∃ tail, path = name :: tail ∧ entries.Entry tail kind) ∨
      rest.Entry path kind
  | .symlink name rest, path, kind => (path = [name] ∧ kind = .symlink) ∨ rest.Entry path kind
  | .special name rest, path, kind => (path = [name] ∧ kind = .special) ∨ rest.Entry path kind

def names : Directory → List FileName
  | .empty => []
  | .file name _ rest | .directory name _ rest | .symlink name rest | .special name rest =>
    name :: rest.names

/-- No directory lists a name twice. -/
def Distinct : Directory → Prop
  | .empty => True
  | .file name _ rest | .symlink name rest | .special name rest => name ∉ rest.names ∧ rest.Distinct
  | .directory name entries rest => name ∉ rest.names ∧ entries.Distinct ∧ rest.Distinct

variable {directory : Directory} {kind : EntryKind}

theorem Entry.head_mem {path : List FileName} (h : directory.Entry path kind) :
    ∃ name tail, path = name :: tail ∧ name ∈ directory.names := by
  induction directory generalizing path with
  | empty => exact absurd h id
  | file name bytes rest ih | symlink name rest ih | special name rest ih =>
    rcases h with ⟨rfl, -⟩ | h
    · simp [names]
    · grind [names]
  | directory name entries rest _ ih =>
    rcases h with ⟨rfl, -⟩ | ⟨tail, rfl, -⟩ | h
    · simp [names]
    · simp [names]
    · grind [names]

/-- Every entry can be walked over: its path is portable, and it is a file or a directory. -/
def Readable (parent : List FileName) (directory : Directory) : Prop :=
  ∀ path kind, directory.Entry path kind →
    (∃ relative, portablePath (parent ++ path) = .ok relative) ∧
      (kind = .directory ∨ ∃ bytes, kind = .file bytes)

/-- A walk finds the files, but for the manifest. -/
structure Walked (parent : List FileName) (directory : Directory)
    (files : List (String × List UInt8)) : Prop where
  readable : directory.Readable parent
  mem_iff : ∀ relative bytes, (relative, bytes) ∈ files ↔ relative ≠ bundleManifestFile ∧
    ∃ path, directory.Entry path (.file bytes) ∧ portablePath (parent ++ path) = .ok relative

variable {parent : List FileName}

theorem exists_collectFiles :
    (∃ files, directory.collectFiles parent = .ok files) ↔ directory.Readable parent := by
  induction directory generalizing parent with
  | empty => simp [collectFiles, Readable, Entry]
  | file name bytes rest ih =>
    have hreadable : (file name bytes rest).Readable parent ↔
        (∃ relative, portablePath (parent ++ [name]) = .ok relative) ∧ rest.Readable parent := by
      simp [Readable, Entry, or_imp, forall_and, and_assoc]
    simp [collectFiles, hreadable, ← ih]
  | directory name entries rest ihe ih =>
    have hreadable : (Directory.directory name entries rest).Readable parent ↔
        (∃ relative, portablePath (parent ++ [name]) = .ok relative) ∧
          entries.Readable (parent ++ [name]) ∧ rest.Readable parent := by
      simp [Readable, Entry, or_imp, forall_and, and_assoc]
      grind
    simp [collectFiles, hreadable, ← ih, ← ihe]
  | symlink name rest ih | special name rest ih =>
    simp only [collectFiles, bind_eq_ok, reduceCtorEq, and_false, exists_false, false_iff]
    intro h
    simpa using (h [name] _ (.inl ⟨rfl, rfl⟩)).2

variable {files : List (String × List UInt8)}

theorem walked_of_collectFiles (h : directory.collectFiles parent = .ok files) :
    Walked parent directory files := by
  refine ⟨exists_collectFiles.1 ⟨files, h⟩, fun relative bytes => ?_⟩
  induction directory generalizing parent files with
  | empty =>
    obtain rfl := Except.ok.inj h
    simp [Entry]
  | file name bytes' rest ih =>
    simp only [collectFiles, bind_eq_ok, return_eq_ok] at h
    obtain ⟨here, hhere, others, hothers, rfl⟩ := h
    simp only [Entry, or_and_right, exists_or, and_or_left, ← ih hothers]
    split_ifs with hmanifest
    · simp [hhere]
      grind
    · simp [hhere]
      grind
  | directory name entries rest ihe ih =>
    simp only [collectFiles, bind_eq_ok, return_eq_ok] at h
    obtain ⟨-, -, inner, hinner, others, hothers, rfl⟩ := h
    simp only [mem_append, ih hothers, ihe hinner, Entry, or_and_right, exists_or, ← and_or_left]
    simp
  | symlink name rest ih | special name rest ih =>
    simp only [collectFiles, bind_eq_ok, reduceCtorEq, and_false, exists_false] at h

variable {name : FileName}

theorem Walked.notMem {rest : Directory} {others : List (String × List UInt8)}
    (h : Walked parent rest others) {tail : List FileName} {relative : String}
    (hname : name ∉ rest.names) (hrelative : portablePath (parent ++ name :: tail) = .ok relative) :
    relative ∉ others.map (·.1) := by
  intro hmem
  obtain ⟨⟨relative', bytes⟩, hfound, rfl⟩ := mem_map.1 hmem
  obtain ⟨-, path, hentry, hpath⟩ := (h.mem_iff _ _).1 hfound
  obtain ⟨name', tail', rfl, hname'⟩ := hentry.head_mem
  have hsame := append_cancel_left (portablePath_inj hpath hrelative)
  exact hname ((cons.inj hsame).1 ▸ hname')

theorem nodup_collectFiles (hdistinct : directory.Distinct)
    (h : directory.collectFiles parent = .ok files) : (files.map (·.1)).Nodup := by
  induction directory generalizing parent files with
  | empty =>
    obtain rfl := Except.ok.inj h
    exact nodup_nil
  | file name bytes rest ih =>
    simp only [collectFiles, bind_eq_ok, return_eq_ok] at h
    obtain ⟨relative, hrelative, others, hothers, rfl⟩ := h
    have hrest := ih hdistinct.2 hothers
    split_ifs
    · exact hrest
    · exact nodup_cons.2 ⟨(walked_of_collectFiles hothers).notMem hdistinct.1 hrelative, hrest⟩
  | directory name entries rest ihe ih =>
    simp only [collectFiles, bind_eq_ok, return_eq_ok] at h
    obtain ⟨-, -, inner, hinner, others, hothers, rfl⟩ := h
    rw [map_append]
    refine (ihe hdistinct.2.1 hinner).append (ih hdistinct.2.2 hothers) fun relative hmem => ?_
    obtain ⟨⟨relative', bytes⟩, hfound, rfl⟩ := mem_map.1 hmem
    obtain ⟨-, tail, -, hpath⟩ := ((walked_of_collectFiles hinner).mem_iff _ _).1 hfound
    rw [append_assoc] at hpath
    exact (walked_of_collectFiles hothers).notMem hdistinct.1 hpath
  | symlink name rest ih | special name rest ih =>
    simp only [collectFiles, bind_eq_ok, reduceCtorEq, and_false, exists_false] at h

theorem not_entry_of_notMem (h : name ∉ directory.names) {tail : List FileName} :
    ¬directory.Entry (name :: tail) kind := by
  intro hentry
  obtain ⟨name', tail', heq, hmem⟩ := hentry.head_mem
  exact h ((cons.inj heq).1 ▸ hmem)

theorem not_entry_nil : ¬directory.Entry [] kind := by
  intro hentry
  obtain ⟨name, tail, heq, -⟩ := hentry.head_mem
  exact absurd heq nofun

theorem find_eq_some (hdistinct : directory.Distinct) :
    directory.find name = some kind ↔ directory.Entry [name] kind := by
  induction directory with
  | empty => exact ⟨nofun, fun h => absurd h id⟩
  | file name' bytes rest ih | symlink name' rest ih | special name' rest ih =>
    rw [find, Entry]
    split_ifs with hname
    · subst hname
      simp [not_entry_of_notMem hdistinct.1, eq_comm]
    · rw [ih hdistinct.2]
      simp [Ne.symm hname]
  | directory name' entries rest _ ih =>
    rw [find, Entry]
    split_ifs with hname
    · subst hname
      simp [not_entry_of_notMem hdistinct.1, not_entry_nil, eq_comm]
    · rw [ih hdistinct.2.2]
      simp [Ne.symm hname]

end Directory

/-! ## Listing the files -/

section Listing

variable {sha256 : List UInt8 → Bytes 32} {reads reads' : String → Nat → Nat → Nat}
  {directory directory' : Directory} {files : List BundleFile}

theorem portablePath_manifest : portablePath [.text bundleManifestFile] = .ok bundleManifestFile := by
  decide +kernel

section

variable (h : digestFiles sha256 reads directory = .ok files)

include h

theorem digestFiles_eq_ok :
    ∃ found, directory.collectFiles [] = .ok found ∧
      (found.insertionSort fun left right => pathLe left.1 right.1).mapM
        (fun entry => digestFile sha256 (reads entry.1) entry.1 entry.2) = .ok files := by
  simp only [digestFiles, bind_eq_ok] at h
  exact h

theorem exists_listed {path : List FileName} {bytes : List UInt8}
    (hentry : directory.Entry path (.file bytes)) (hpath : path ≠ [.text bundleManifestFile]) :
    ∃ relative, portablePath path = .ok relative ∧
      ∃ file ∈ files, digestFile sha256 (reads relative) relative bytes = .ok file := by
  obtain ⟨found, hfound, hlisted⟩ := digestFiles_eq_ok h
  have hwalked := Directory.walked_of_collectFiles hfound
  obtain ⟨⟨relative, hrelative⟩, -⟩ := hwalked.readable path _ hentry
  have hne : relative ≠ bundleManifestFile := by
    rintro rfl
    exact hpath (portablePath_inj hrelative portablePath_manifest)
  have hmem := (hwalked.mem_iff relative bytes).2 ⟨hne, path, hentry, hrelative⟩
  have hsorted : (relative, bytes) ∈ found.insertionSort fun left right => pathLe left.1 right.1 :=
    (mem_insertionSort _).2 hmem
  obtain ⟨file, hfile, hdigest⟩ := exists_of_mapM_ok hlisted hsorted
  exact ⟨relative, hrelative, file, hfile, hdigest⟩

theorem exists_entry {file : BundleFile} (hfile : file ∈ files) :
    ∃ path bytes, directory.Entry path (.file bytes) ∧ portablePath path = .ok file.path ∧
      digestFile sha256 (reads file.path) file.path bytes = .ok file := by
  obtain ⟨found, hfound, hlisted⟩ := digestFiles_eq_ok h
  have hwalked := Directory.walked_of_collectFiles hfound
  obtain ⟨⟨relative, bytes⟩, hsorted, hdigest⟩ := mem_of_mapM_ok hlisted hfile
  have hmem := (mem_insertionSort _).1 hsorted
  obtain ⟨-, path, hentry, hpath⟩ := (hwalked.mem_iff relative bytes).1 hmem
  obtain ⟨-, rfl, -⟩ := digestFile_eq_ok hdigest
  exact ⟨path, bytes, hentry, hpath, hdigest⟩

end

/-- The bytes of the files under a directory. -/
def Directory.contents (directory : Directory) : Set (List UInt8) :=
  {bytes | ∃ path, directory.Entry path (.file bytes)}

theorem entry_of_listed_alike (h : digestFiles sha256 reads directory = .ok files)
    (h' : digestFiles sha256 reads' directory' = .ok files) {strings : Set (List UInt8)}
    (hcontents : directory.contents ⊆ strings) (hcontents' : directory'.contents ⊆ strings)
    (hinj : Set.InjOn sha256 strings) {path : List FileName} {bytes : List UInt8}
    (hpath : path ≠ [.text bundleManifestFile]) (hentry : directory.Entry path (.file bytes)) :
    directory'.Entry path (.file bytes) := by
  obtain ⟨relative, hrelative, file, hfile, hdigest⟩ := exists_listed h hentry hpath
  obtain ⟨path', bytes', hentry', hpath', hdigest'⟩ := exists_entry h' hfile
  obtain ⟨-, rfl, -, hsha, -⟩ := digestFile_eq_ok hdigest
  obtain ⟨-, -, -, hsha', -⟩ := digestFile_eq_ok hdigest'
  obtain rfl := portablePath_inj hrelative hpath'
  have hbytes := hinj (hcontents ⟨path, hentry⟩) (hcontents' ⟨path, hentry'⟩)
    (Bytes.hex_inj (hsha.symm.trans hsha'))
  rw [hbytes]
  exact hentry'

end Listing

end NanoStacks.Checkpoint
