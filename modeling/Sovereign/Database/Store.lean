import Sovereign.Database.Keys
import Sovereign.Sync.Entry

/-!
# Rows and objects

What the query tier stores: `TriTemporalEvent` as it is written and returned, `Row` as a line of
`ArrowSchema`, and the objects of `pkg/durability/localfs.go` — Arrow files with one record batch, and
compaction manifests.

An `ObjectStore` is the directory as a finite map from keys to objects.  An upload goes to a temporary
file that is renamed into place, so it happens as a whole or not at all; it may still report an error
when it has happened, from the sync of the directory (`UploadOutcome.written`).  Reads that fail are
given by a `ReadFault` for each key.

The bytes of an Arrow file and the text of a manifest are left out: a file is its rows, a manifest its
lines.  Paths that escape the root, temporary files and cancellation do not occur.
-/

namespace Sovereign.Database

open Lib Sync

/-! ### Rows -/

structure TriTemporalEvent where
  entityID : EntityID
  systemTime : Int64
  validTimeStart : Int64
  validTimeEnd : Int64
  assertionTime : Int64
  h3Index : UInt64
  payload : Bytes
  payloadDigest : Digest
deriving DecidableEq

/-- A row of `ArrowSchema`: an event with 16 bytes of its entity's hash. -/
structure Row extends TriTemporalEvent where
  entityIDHash : FixedBytes 16
deriving DecidableEq

/-- The first 16 bytes of an entity's hash. -/
def entityHash16 (R : Runtime) (entityID : EntityID) : FixedBytes 16 := .copyFrom 16 (R.sha256 entityID).bytes

def entityHash8 (R : Runtime) (entityID : EntityID) : Hash8 := .copyFrom 8 (R.sha256 entityID).bytes

/-- The eight bytes of a hash that a key is made of. -/
def keyHash (h : FixedBytes 16) : Hash8 := .copyFrom 8 h.bytes

theorem copyFrom_bytes_of_le {n : ℕ} {bs : Bytes} (h : n ≤ bs.length) :
    (FixedBytes.copyFrom n bs).bytes = bs.take n := by
  simp [FixedBytes.copyFrom, List.take_append_of_le_length h]

theorem keyHash_entityHash16 (R : Runtime) (entityID : EntityID) :
    keyHash (entityHash16 R entityID) = entityHash8 R entityID := by
  apply FixedBytes.ext
  have hlen : (R.sha256 entityID).bytes.length = 32 := (R.sha256 entityID).length_bytes
  rw [keyHash, entityHash8, copyFrom_bytes_of_le (by simp), copyFrom_bytes_of_le (by omega), entityHash16,
    copyFrom_bytes_of_le (by omega), List.take_take]
  rfl

/-! ### Objects -/

/-- An object: an Arrow file by its rows, or a manifest by its lines. -/
inductive StoredObject where
  | arrow (rows : List Row)
  | manifest (lines : List ObjectKey)
deriving DecidableEq

abbrev ObjectStore := AList fun _ : ObjectKey => StoredObject

def sortStrings (keys : List ObjectKey) : List ObjectKey := sortBy compare id keys

/-- How an upload ends: well, without effect, or with an error behind the rename. -/
inductive UploadOutcome where
  | ok
  | failed
  | written
deriving DecidableEq

/-- How a read ends: well, with an error, or with a record batch that cannot be read and is skipped. -/
inductive ReadFault where
  | none
  | failed
  | record
deriving DecidableEq

namespace ObjectStore

/-- `ListObjects` with no bound on the number of keys. -/
def listObjects (s : ObjectStore) (pre : Bytes) : List ObjectKey := sortStrings (s.keys.filter (pre.isPrefixOf ·))

/-- `Upload`, and whether it reports success. -/
def upload (s : ObjectStore) (key : ObjectKey) (obj : StoredObject) : UploadOutcome → ObjectStore × Bool
  | .ok => (s.insert key obj, true)
  | .failed => (s, false)
  | .written => (s.insert key obj, false)

def delete (s : ObjectStore) (key : ObjectKey) : ObjectStore := s.erase key

def readRows (s : ObjectStore) (key : ObjectKey) (fault : ReadFault) : Option (List Row) :=
  match s.lookup key, fault with
  | some (.arrow rows), .none => some rows
  | some (.arrow _), .record => some []
  | _, _ => none

def readLines (s : ObjectStore) (key : ObjectKey) (fails : Bool) : Option (List ObjectKey) :=
  match s.lookup key, fails with
  | some (.manifest lines), false => some lines
  | some (.arrow _), false => some []
  | _, _ => none

variable {s : ObjectStore} {key : ObjectKey}

theorem mem_listObjects {pre : Bytes} : key ∈ s.listObjects pre ↔ key ∈ s ∧ pre <+: key := by
  rw [listObjects, sortStrings, (sortBy_perm _).mem_iff, List.mem_filter, List.isPrefixOf_iff_prefix,
    AList.mem_keys]

theorem lookup_of_mem_listObjects {pre : Bytes}
    (h : key ∈ s.listObjects pre) : ∃ obj, s.lookup key = some obj :=
  Option.isSome_iff_exists.mp (AList.lookup_isSome.mpr (mem_listObjects.mp h).1)

theorem mem_of_lookup {obj : StoredObject} (h : s.lookup key = some obj) : key ∈ s :=
  AList.lookup_isSome.mp (by rw [h]; rfl)

theorem readRows_ok {rows : List Row}
    (h : s.lookup key = some (.arrow rows)) : s.readRows key .none = some rows := by
  simp only [readRows, h]

end ObjectStore

/-! ### Manifests -/

/-- `buildManifest`: the L1 key, then the L0 keys, each on a line. -/
def buildManifest (l1Key : ObjectKey) (l0Keys : List ObjectKey) : List ObjectKey := l1Key :: l0Keys

/-- `ParseManifest`: the first line that is not empty is the L1 key, and of the others those that start
with `l0/` are L0 keys. -/
def parseManifest (lines : List ObjectKey) : ObjectKey × List ObjectKey :=
  match lines.filter (fun line => !line.isEmpty) with
  | [] => ([], [])
  | l1Key :: rest => (l1Key, rest.filter (Tier.l0.dir.isPrefixOf ·))

theorem parseManifest_buildManifest {l1Key : ObjectKey} {l0Keys : List ObjectKey} (hne : l1Key ≠ [])
    (hl0 : ∀ key ∈ l0Keys, Tier.l0.dir <+: key) : parseManifest (buildManifest l1Key l0Keys) = (l1Key, l0Keys) := by
  have hempty : l1Key.isEmpty = false := by simpa using hne
  have hkeys : l0Keys.filter (fun line => !line.isEmpty) = l0Keys := by
    refine List.filter_eq_self.mpr fun key hkey => ?_
    obtain ⟨rest, rfl⟩ := hl0 key hkey
    rfl
  have hdirs : l0Keys.filter (Tier.l0.dir.isPrefixOf ·) = l0Keys :=
    List.filter_eq_self.mpr fun key hkey => List.isPrefixOf_iff_prefix.mpr (hl0 key hkey)
  rw [buildManifest, parseManifest]
  simp [hempty, hkeys, hdirs]

end Sovereign.Database
