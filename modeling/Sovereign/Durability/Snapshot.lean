import Sovereign.Sync.EngineSpec
import Sovereign.Wal.Codec

/-!
# Snapshot images

`pkg/durability/snapshot.go` and `state_fingerprint.go`.  A checkpoint writes every record of the
engine into an image: a header, the records in the order of `(entity, dot)`, and a CRC-32C over all
of it.  `decode_encodeSnapshotImage` is the round trip: what is loaded is the image that was
written, with its records in canonical order.

The fingerprint of a state is a hash over the sorted per-entry hashes, so it does not depend on the
order of the records (`fingerprintRecords_congr`).

Images of version 2, which end without the checksum, are still decoded.  The switch that turns the
checksum off in fault-injection tests is left out.
-/

namespace Sovereign.Durability

open Lib Sync Wal

/-- `SnapshotRecord`: an entity and one of its entries. -/
abbrev SnapshotRecord := IncomingEntry

structure SnapshotImage where
  records : List SnapshotRecord
  merkleRoot : Digest
  lamportHigh : UInt64
  cutSeq : UInt64
deriving DecidableEq

/-- The errors of the image codec; each carries what its message prints. -/
inductive SnapshotError where
  /-- entityID too long -/
  | entityIDTooLong (length : ℕ)
  /-- header too short -/
  | headerTooShort (length : ℕ)
  /-- bad magic -/
  | badMagic (magic : Bytes)
  /-- v3 image too short for the CRC trailer -/
  | trailerTooShort (length : ℕ)
  /-- whole-image CRC32C mismatch, stored and computed -/
  | corrupt (stored computed : UInt32) (length : ℕ)
  /-- unsupported version -/
  | badVersion (version : UInt8)
  /-- truncated entityID length at a record -/
  | truncatedLength (record : ℕ)
  /-- truncated entityID at a record -/
  | truncatedEntityID (record : ℕ)
  /-- truncated entry at a record -/
  | truncatedEntry (record : ℕ)
  /-- trailing bytes after the records -/
  | trailing (bytes records : ℕ)
  /-- the object does not exist -/
  | missing
  /-- image watermark mismatch -/
  | watermarkMismatch (header key : UInt64)
deriving DecidableEq

/-- `snapshotMagic`, the bytes of `SNSP`. -/
def snapshotMagic : Bytes := [0x53, 0x4E, 0x53, 0x50]

def snapshotVersionV2 : UInt8 := 2

def snapshotVersionV3 : UInt8 := 3

def snapshotHeaderSize : ℕ := 4 + 1 + 8 + 8 + 8 + 32

/-! ### Encoding -/

/-- The records in canonical order. -/
def sortRecords (records : List SnapshotRecord) : List SnapshotRecord :=
  sortBy compareKeys IncomingEntry.key records

def encodeRecord (r : SnapshotRecord) : Bytes :=
  putBE 2 r.entityID.length ++ (r.entityID ++ encodeCRDTEntry r.entry)

def encodeRecords : List SnapshotRecord → Except SnapshotError Bytes
  | [] => .ok []
  | r :: rs =>
    if 0xFFFF < r.entityID.length then .error (.entityIDTooLong r.entityID.length)
    else
      match encodeRecords rs with
      | .error err => .error err
      | .ok bytes => .ok (encodeRecord r ++ bytes)

def snapshotHeader (image : SnapshotImage) : Bytes :=
  snapshotMagic ++ ([snapshotVersionV3] ++ (putU64 image.lamportHigh ++
    (putBE 8 image.records.length ++ (putU64 image.cutSeq ++ image.merkleRoot.bytes))))

def encodeSnapshotImage (image : SnapshotImage) : Except SnapshotError Bytes :=
  match encodeRecords (sortRecords image.records) with
  | .error err => .error err
  | .ok bytes =>
    let body := snapshotHeader image ++ bytes
    .ok (body ++ putU32 (crc32c body))

/-! ### Decoding -/

/-- The loop over the records: `i` have been read, `count` are to come. -/
def decodeRecords (i : ℕ) : ℕ → Bytes → Except SnapshotError (List SnapshotRecord × Bytes)
  | 0, data => .ok ([], data)
  | count + 1, data =>
    if data.length < 2 then .error (.truncatedLength i)
    else
      let eidLen := getBE (data.take 2)
      let data := data.drop 2
      if data.length < eidLen then .error (.truncatedEntityID i)
      else
        let entityID := data.take eidLen
        let data := data.drop eidLen
        if data.length < crdtEntryWireLen then .error (.truncatedEntry i)
        else
          let entry := decodeCRDTEntry (data.take crdtEntryWireLen)
          match decodeRecords (i + 1) count (data.drop crdtEntryWireLen) with
          | .error err => .error err
          | .ok (rs, rest) => .ok (⟨entityID, entry⟩ :: rs, rest)

/-- The header fields and the records of an image without its trailer. -/
def decodeBody (data : Bytes) : Except SnapshotError SnapshotImage :=
  let recordCount := getBE (slice data 13 8)
  match decodeRecords 0 recordCount (data.drop snapshotHeaderSize) with
  | .error err => .error err
  | .ok (records, rest) =>
    if rest ≠ [] then .error (.trailing rest.length recordCount)
    else
      .ok
        { records := records
          merkleRoot := .copyFrom 32 (slice data 29 32)
          lamportHigh := getU64 (slice data 5 8)
          cutSeq := getU64 (slice data 21 8) }

def decodeSnapshotImage (data : Bytes) : Except SnapshotError SnapshotImage :=
  if data.length < snapshotHeaderSize then .error (.headerTooShort data.length)
  else if data.take 4 ≠ snapshotMagic then .error (.badMagic (data.take 4))
  else
    let version := (data.drop 4).headD 0
    if version = snapshotVersionV3 then
      if data.length < snapshotHeaderSize + 4 then .error (.trailerTooShort data.length)
      else
        let body := data.take (data.length - 4)
        let want := getU32 (data.drop (data.length - 4))
        let got := crc32c body
        if want ≠ got then .error (.corrupt want got body.length) else decodeBody body
    else if version = snapshotVersionV2 then decodeBody data
    else .error (.badVersion version)

/-! ### The store -/

abbrev Objects := UInt64 → Option Bytes

/-- `SnapshotStore`: what recovery asks of its store. -/
structure SnapshotStore where
  snapshotExists : UInt64 → Except SnapshotError Bool
  loadSnapshotImage : UInt64 → Except SnapshotError SnapshotImage

def loadSnapshotImage (objects : Objects) (lamportHigh : UInt64) :
    Except SnapshotError SnapshotImage :=
  match objects lamportHigh with
  | none => .error .missing
  | some data =>
    match decodeSnapshotImage data with
    | .error err => .error err
    | .ok image =>
      if image.lamportHigh ≠ lamportHigh then
        .error (.watermarkMismatch image.lamportHigh lamportHigh)
      else .ok image

def localFS (objects : Objects) : SnapshotStore where
  snapshotExists := fun lamportHigh => .ok (objects lamportHigh).isSome
  loadSnapshotImage := loadSnapshotImage objects

/-- `LocalFS.WriteSnapshotImage` on a store without faults; the upload renames a finished file, so
the object is replaced in one step. -/
def writeSnapshotImage (objects : Objects) (image : SnapshotImage) :
    Except SnapshotError Objects :=
  match encodeSnapshotImage image with
  | .error err => .error err
  | .ok data => .ok (Function.update objects image.lamportHigh (some data))

/-! ### Fingerprints -/

/-- `fingerprintDomainSep`, the bytes of `SOVEREIGN-STATE-FINGERPRINT-v1` and a zero. -/
def fingerprintDomainSep : Bytes :=
  [0x53, 0x4F, 0x56, 0x45, 0x52, 0x45, 0x49, 0x47, 0x4E, 0x2D, 0x53, 0x54, 0x41, 0x54, 0x45, 0x2D,
    0x46, 0x49, 0x4E, 0x47, 0x45, 0x52, 0x50, 0x52, 0x49, 0x4E, 0x54, 0x2D, 0x76, 0x31, 0x00]

variable (R : Runtime)

def fingerprintEntry (r : SnapshotRecord) : Bytes :=
  (R.sha256 (fingerprintDomainSep ++ (r.entityID ++ (0 :: encodeCRDTEntry r.entry)))).bytes

def foldEntryDigests (perEntry : List Bytes) : Digest :=
  R.sha256 (sortBy compare id perEntry).flatten

def fingerprintRecords (records : List SnapshotRecord) : Digest :=
  foldEntryDigests R (records.map (fingerprintEntry R))

def recordsOf (pairs : List (EntityID × List CRDTEntry)) : List SnapshotRecord :=
  pairs.flatMap fun p => p.2.map fun entry => ⟨p.1, entry⟩

def stateFingerprint (e : Engine) : Digest := fingerprintRecords R (recordsOf e.allPairs)

variable {R}

theorem fingerprintRecords_congr {xs ys : List SnapshotRecord} (h : xs.Perm ys) :
    fingerprintRecords R xs = fingerprintRecords R ys := by
  rw [fingerprintRecords, fingerprintRecords, foldEntryDigests, foldEntryDigests,
    sortBy_congr (h.map (fingerprintEntry R))]

/-! ### Round trip -/

theorem sortRecords_perm (records : List SnapshotRecord) : (sortRecords records).Perm records :=
  sortBy_perm _

theorem encodeRecord_length (r : SnapshotRecord) :
    (encodeRecord r).length = 2 + r.entityID.length + crdtEntryWireLen := by
  simp [encodeRecord, encodeCRDTEntry_length]
  omega

variable {rs : List SnapshotRecord} {image : SnapshotImage}

/-- The records encode exactly when every identifier fits two length bytes. -/
theorem encodeRecords_eq (h : ∀ r ∈ rs, r.entityID.length ≤ 0xFFFF) :
    encodeRecords rs = .ok (rs.flatMap encodeRecord) := by
  induction rs with
  | nil => rfl
  | cons r rs ih =>
    have hr := h r List.mem_cons_self
    rw [encodeRecords, if_neg (by omega), ih fun s hs => h s (List.mem_cons_of_mem _ hs)]
    rfl

theorem encodeRecords_ok {bytes : Bytes}
    (h : encodeRecords rs = .ok bytes) : ∀ r ∈ rs, r.entityID.length ≤ 0xFFFF := by
  induction rs generalizing bytes with
  | nil => simp
  | cons r rs ih =>
    rw [encodeRecords] at h
    split at h
    · cases h
    next hlen =>
    split at h
    · cases h
    next bytes' heq =>
    rintro s hs
    rcases List.mem_cons.mp hs with rfl | hs
    · omega
    · exact ih heq s hs

/-- The loop reads the records one by one and leaves what is behind them. -/
theorem decodeRecords_encode (i : ℕ) (h : ∀ r ∈ rs, r.entityID.length ≤ 0xFFFF) (rest : Bytes) {count : ℕ}
    (hcount : count ≤ rs.length) :
    decodeRecords i count (rs.flatMap encodeRecord ++ rest)
      = .ok (rs.take count, (rs.drop count).flatMap encodeRecord ++ rest) := by
  induction rs generalizing i count with
  | nil =>
    obtain rfl : count = 0 := by simpa using hcount
    rfl
  | cons r rs ih =>
    obtain _ | count := count
    · rfl
    have hr := h r List.mem_cons_self
    have hlen : getBE (putBE 2 r.entityID.length) = r.entityID.length :=
      getBE_putBE_of_lt (by omega)
    -- the three fields of the first record, and what is behind it
    rw [List.flatMap_cons, decodeRecords, encodeRecord]
    simp only [List.append_assoc]
    rw [take_append_len (putBE_length _ _), drop_append_len (putBE_length _ _), hlen,
      take_append_len rfl, drop_append_len rfl,
      take_append_len (encodeCRDTEntry_length _), drop_append_len (encodeCRDTEntry_length _),
      decode_encodeCRDTEntry,
      ih (i + 1) (fun s hs => h s (List.mem_cons_of_mem _ hs)) (by simpa using hcount)]
    rw [if_neg (by simp only [List.length_append, putBE_length]; omega), if_neg (by simp),
      if_neg (by simp [encodeCRDTEntry_length])]
    rfl

theorem snapshotHeader_length (image : SnapshotImage) :
    (snapshotHeader image).length = snapshotHeaderSize := by
  simp [snapshotHeader, snapshotMagic, snapshotHeaderSize]

theorem flatMap_encodeRecord_ne_nil (h : rs ≠ []) : rs.flatMap encodeRecord ≠ [] := by
  obtain ⟨r, rs, rfl⟩ := List.exists_cons_of_ne_nil h
  intro hnil
  have hlen := congrArg List.length hnil
  rw [List.flatMap_cons, List.length_append, encodeRecord_length, crdtEntryWireLen] at hlen
  simp at hlen

theorem body_fields (image : SnapshotImage) (bytes : Bytes) :
    let body := snapshotHeader image ++ bytes
    body.take 4 = snapshotMagic ∧ (body.drop 4).headD 0 = snapshotVersionV3 ∧
      slice body 5 8 = putU64 image.lamportHigh ∧
      slice body 13 8 = putBE 8 image.records.length ∧ slice body 21 8 = putU64 image.cutSeq ∧
      slice body 29 32 = image.merkleRoot.bytes ∧ body.drop snapshotHeaderSize = bytes := by
  have hmagic : snapshotMagic.length = 4 := rfl
  refine ⟨rfl, rfl, ?_, ?_, ?_, ?_, drop_append_len (snapshotHeader_length image) _⟩ <;>
    simp only [snapshotHeader, List.append_assoc, slice_skip, slice_head, hmagic,
      List.length_singleton, putU64_length, putBE_length, FixedBytes.length_bytes, Nat.reduceLeDiff,
      Nat.reduceSub]

/-- What the record count of the header leaves unread makes the image invalid. -/
theorem decodeBody_encode (hids : ∀ r ∈ sortRecords image.records, r.entityID.length ≤ 0xFFFF) :
    decodeBody (snapshotHeader image ++ (sortRecords image.records).flatMap encodeRecord)
      = if image.records.length < 256 ^ 8 then
          .ok { image with records := sortRecords image.records }
        else
          .error (.trailing (((sortRecords image.records).drop
            (image.records.length % 256 ^ 8)).flatMap encodeRecord).length
              (image.records.length % 256 ^ 8)) := by
  obtain ⟨-, -, hlamport, hrecords, hcut, hroot, hrest⟩ :=
    body_fields image ((sortRecords image.records).flatMap encodeRecord)
  have hperm := (sortRecords_perm image.records).length_eq
  have hle : image.records.length % 256 ^ 8 ≤ (sortRecords image.records).length :=
    hperm ▸ Nat.mod_le _ _
  have hloop := decodeRecords_encode 0 hids [] hle
  rw [List.append_nil, List.append_nil] at hloop
  rw [decodeBody, hrecords, getBE_putBE, hrest, hloop, hlamport, hcut, hroot]
  by_cases hlt : image.records.length < 256 ^ 8
  · rw [if_pos hlt, Nat.mod_eq_of_lt hlt, ← hperm, List.take_length, List.drop_length]
    simp
  · have hmod : image.records.length % 256 ^ 8 < 256 ^ 8 := Nat.mod_lt _ (by decide)
    rw [if_neg hlt]
    refine if_pos (flatMap_encodeRecord_ne_nil fun hnil => ?_)
    have := List.drop_eq_nil_iff.mp hnil
    omega

/-- **Round trip**: an image that was written is read back with its records in canonical order, as
long as their number fits the header. -/
theorem decode_encodeSnapshotImage {data : Bytes} (h : encodeSnapshotImage image = .ok data) :
    decodeSnapshotImage data
      = decodeBody (snapshotHeader image ++ (sortRecords image.records).flatMap encodeRecord) ∧
      ∀ r ∈ sortRecords image.records, r.entityID.length ≤ 0xFFFF := by
  rw [encodeSnapshotImage] at h
  split at h
  · cases h
  next bytes heq =>
  have hids := encodeRecords_ok heq
  obtain rfl : (sortRecords image.records).flatMap encodeRecord = bytes := by
    have := (encodeRecords_eq hids).symm.trans heq
    injection this
  refine ⟨?_, hids⟩
  cases h
  obtain ⟨hmagic, hversion, -⟩ :=
    body_fields image ((sortRecords image.records).flatMap encodeRecord)
  set body := snapshotHeader image ++ (sortRecords image.records).flatMap encodeRecord with hbody
  have hbodylen : 61 ≤ body.length := by
    rw [hbody, List.length_append, snapshotHeader_length, snapshotHeaderSize]
    omega
  have htrail : (body ++ putU32 (crc32c body)).length - 4 = body.length := by simp
  have hmagic' : (body ++ putU32 (crc32c body)).take 4 = snapshotMagic := by
    rw [List.take_append_of_le_length (by omega), hmagic]
  have hversion' : ((body ++ putU32 (crc32c body)).drop 4).headD 0 = snapshotVersionV3 := by
    rw [List.drop_append_of_le_length (by omega)]
    cases hd : body.drop 4 with
    | nil =>
      have := congrArg List.length hd
      rw [List.length_drop, List.length_nil] at this
      omega
    | cons b bs => rw [← hversion, hd]; rfl
  rw [decodeSnapshotImage, snapshotHeaderSize, if_neg (by rw [List.length_append]; omega),
    if_neg (by simp [hmagic']), hversion']
  simp only [htrail, List.take_left, List.drop_left, getU32_putU32]
  simp [hbodylen]

theorem loaded_of_encode {loaded : SnapshotImage} {data : Bytes}
    (h : encodeSnapshotImage image = .ok data) (hload : decodeSnapshotImage data = .ok loaded) :
    loaded = { image with records := sortRecords image.records } := by
  obtain ⟨heq, hids⟩ := decode_encodeSnapshotImage h
  rw [heq, decodeBody_encode hids] at hload
  split at hload
  · cases hload
    rfl
  · cases hload

end Sovereign.Durability
