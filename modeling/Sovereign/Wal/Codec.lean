import Sovereign.Lib.Crc
import Sovereign.Sync.Entry

/-!
# The records of the write-ahead log

`internal/chaos/wal.go` and the entry codec of `codec.go`: the three kinds of record the log keeps,
how the appenders encode them, and how replay decodes them.

A record on disk is `seq (8) ‖ type (1) ‖ length (4) ‖ payload`.  The appenders write one outer type
only, `WALRecChecksummed`, whose payload is `inner type (1) ‖ inner payload ‖ CRC-32C (4)`;
replay also accepts the older types that are not checksummed.  The length field holds 32 bits and the
encoders do not look whether the length fits: `putBE 4` takes it modulo `2 ^ 32`, as the conversion
in the source does.

`decode_putMutationV2Payload` at the end is the round trip of a mutation's payload.
-/

namespace Sovereign.Wal

open Lib Sync

/-! ### Data -/

inductive WALRecordType where
  | mutation
  | checkpoint
  | clockAdvance
  | mutationV2
  | checkpointV2
  | checksummed
deriving DecidableEq

def WALRecordType.toByte : WALRecordType → UInt8
  | .mutation => 0x01
  | .checkpoint => 0x02
  | .clockAdvance => 0x03
  | .mutationV2 => 0x04
  | .checkpointV2 => 0x05
  | .checksummed => 0x06

def WALRecordType.ofByte (b : UInt8) : Option WALRecordType :=
  if b = 0x01 then some .mutation
  else if b = 0x02 then some .checkpoint
  else if b = 0x03 then some .clockAdvance
  else if b = 0x04 then some .mutationV2
  else if b = 0x05 then some .checkpointV2
  else if b = 0x06 then some .checksummed
  else none

@[simp] theorem WALRecordType.ofByte_toByte (t : WALRecordType) : ofByte t.toByte = some t := by
  cases t <;> rfl

/-- `WALEntry`, the entry of the oldest record format. -/
structure WALEntry where
  payloadDigest : Digest
  originNodeID : NodeID
  dotNodeID : NodeID
  dotCounter : UInt64
  systemTime : Int64
deriving DecidableEq

/-- The fields of an entry that the oldest format keeps. -/
def WALEntry.ofFull (e : CRDTEntry) : WALEntry :=
  ⟨e.payloadDigest, e.originNodeID, e.dotNodeID, e.dotCounter, e.systemTime⟩

structure WALMutation where
  entityID : EntityID
  full : CRDTEntry
  nodeID : NodeID
  counter : UInt64
  entry : WALEntry
  legacy : Bool
deriving DecidableEq

structure WALCheckpoint where
  merkleRoot : Digest
  fingerprint : Digest
  lamportHigh : UInt64
  cutSeq : UInt64
  clockHigh : UInt64
  hasCutSeq : Bool
  hasFingerprint : Bool
deriving DecidableEq

def WALCheckpoint.zero : WALCheckpoint := ⟨.zero 32, .zero 32, 0, 0, 0, false, false⟩

/-- The errors of the log; each carries what its message prints. -/
inductive WALError where
  /-- mutation with empty entityID -/
  | emptyEntityID
  /-- mutation is marked Legacy -/
  | markedLegacy (entityID : EntityID)
  /-- full-entry dot inconsistent with top-level dot -/
  | inconsistentDot (entityID : EntityID) (full top : CausalDot)
  /-- mutation carries a zero OriginNodeID -/
  | zeroOriginNodeID (entityID : EntityID)
  /-- replay header: unexpected end -/
  | shortFileHeader
  /-- bad magic -/
  | badMagic
  /-- unsupported version -/
  | badVersion (version : ℕ)
  /-- record payload length exceeds max -/
  | payloadTooLong (payloadLen : ℕ) (seq : UInt64)
  /-- sequence gap: first record seq is not 0 -/
  | seqGapFirst (seq : UInt64)
  /-- sequence gap: expected and observed seq, and the record's number -/
  | seqGap (expected observed : UInt64) (record : ℕ)
  /-- corrupt: checksummed frame too short -/
  | corruptTooShort (seq : UInt64) (length : ℕ)
  /-- corrupt: crc mismatch, stored and computed -/
  | corruptCRC (seq : UInt64) (stored computed : UInt32)
  /-- truncated length prefix of a mutation -/
  | truncatedLengthPrefix
  /-- truncated payload of a mutation -/
  | truncatedPayload (length need : ℕ)
  /-- short clock-advance -/
  | shortClockAdvance (seq : UInt64)
  /-- short checkpoint -/
  | shortCheckpoint (seq : UInt64)
  /-- short V2 checkpoint -/
  | shortCheckpointV2 (seq : UInt64)
  /-- unknown record type -/
  | unknownType (recType : UInt8) (seq : UInt64)
deriving DecidableEq

def newWALMutation (entityID : EntityID) (dot : CausalDot) (entry : CRDTEntry) : WALMutation :=
  let full := { entry with
    dotNodeID := dot.nodeID
    dotCounter := dot.counter
    originNodeID := dot.nodeID }
  ⟨entityID, full, dot.nodeID, dot.counter, .ofFull full, false⟩

def validateV2 (m : WALMutation) : Except WALError Unit :=
  if m.entityID = [] then .error .emptyEntityID
  else if m.legacy then .error (.markedLegacy m.entityID)
  else if m.full.dotNodeID ≠ m.nodeID ∨ m.full.dotCounter ≠ m.counter then
    .error (.inconsistentDot m.entityID m.full.dot ⟨m.nodeID, m.counter⟩)
  else if m.full.originNodeID = .zero 16 then .error (.zeroOriginNodeID m.entityID)
  else .ok ()

/-! ### Encoding -/

/-- A signed time as its eight bytes. -/
def putI64 (t : Int64) : Bytes := putU64 t.toUInt64

def getI64 (bs : Bytes) : Int64 := (getU64 bs).toInt64

@[simp] theorem putI64_length (t : Int64) : (putI64 t).length = 8 := putU64_length _

@[simp] theorem getI64_putI64 (t : Int64) : getI64 (putI64 t) = t := by
  rw [getI64, putI64, getU64_putU64, Int64.toInt64_toUInt64]

def crdtEntryWireLen : ℕ := 120

def walEntryLen : ℕ := 80

def encodeCRDTEntry (e : CRDTEntry) : Bytes :=
  e.payloadDigest.bytes ++ (e.originNodeID.bytes ++ (e.dotNodeID.bytes ++ (putU64 e.dotCounter ++
    (putI64 e.systemTime ++ (putI64 e.validTimeStart ++ (putI64 e.validTimeEnd ++
      (putI64 e.assertionTime ++ (putI64 e.decisionTime ++ putU64 e.h3Index))))))))

def decodeCRDTEntry (src : Bytes) : CRDTEntry where
  payloadDigest := .copyFrom 32 (slice src 0 32)
  originNodeID := .copyFrom 16 (slice src 32 16)
  dotNodeID := .copyFrom 16 (slice src 48 16)
  dotCounter := getU64 (slice src 64 8)
  systemTime := getI64 (slice src 72 8)
  validTimeStart := getI64 (slice src 80 8)
  validTimeEnd := getI64 (slice src 88 8)
  assertionTime := getI64 (slice src 96 8)
  decisionTime := getI64 (slice src 104 8)
  h3Index := getU64 (slice src 112 8)

def decodeWALEntry (src : Bytes) : WALEntry where
  payloadDigest := .copyFrom 32 (slice src 0 32)
  originNodeID := .copyFrom 16 (slice src 32 16)
  dotNodeID := .copyFrom 16 (slice src 48 16)
  dotCounter := getU64 (slice src 64 8)
  systemTime := getI64 (slice src 72 8)

def putMutationV2Payload (m : WALMutation) : Bytes :=
  putBE 4 m.entityID.length ++ (m.entityID ++ (m.nodeID.bytes ++ (putU64 m.counter ++
    encodeCRDTEntry m.full)))

def putCheckpointV2Payload (c : WALCheckpoint) : Bytes :=
  c.merkleRoot.bytes ++ (putU64 c.lamportHigh ++ (putU64 c.cutSeq ++ (putU64 c.clockHigh ++
    if c.hasFingerprint then c.fingerprint.bytes else [])))

def putClockAdvancePayload (advancedTo : UInt64) : Bytes := putU64 advancedTo

/-- A record before the checksum and the sequence number: its type and payload. -/
def frame (seq : UInt64) (recType : UInt8) (payload : Bytes) : Bytes :=
  putU64 seq ++ (recType :: (putBE 4 payload.length ++ payload))

def checksummedPayload (innerType : WALRecordType) (inner : Bytes) : Bytes :=
  innerType.toByte :: (inner ++ putU32 (crc32c (innerType.toByte :: inner)))

def frameChecksummed (seq : UInt64) (innerType : WALRecordType) (inner : Bytes) : Bytes :=
  frame seq WALRecordType.checksummed.toByte (checksummedPayload innerType inner)

def encodeMutationV2Checksummed (seq : UInt64) (m : WALMutation) : Bytes :=
  frameChecksummed seq .mutationV2 (putMutationV2Payload m)

def encodeCheckpointChecksummed (seq : UInt64) (c : WALCheckpoint) : Bytes :=
  if c.hasCutSeq then frameChecksummed seq .checkpointV2 (putCheckpointV2Payload c)
  else frameChecksummed seq .checkpoint (c.merkleRoot.bytes ++ putU64 c.lamportHigh)

def encodeClockAdvanceChecksummed (seq advancedTo : UInt64) : Bytes :=
  frameChecksummed seq .clockAdvance (putClockAdvancePayload advancedTo)

/-! ### Decoding -/

/-- `decodeMutationPayload`, of the oldest format. -/
def decodeMutationPayload (p : Bytes) : Except WALError WALMutation :=
  if p.length < 4 then .error .truncatedLengthPrefix
  else
    let entityIDLen := getBE (slice p 0 4)
    let need := 4 + entityIDLen + 16 + 8 + walEntryLen
    if p.length < need then .error (.truncatedPayload p.length need)
    else
      let off := 4 + entityIDLen
      let entry := decodeWALEntry (slice p (off + 24) walEntryLen)
      .ok
        { entityID := slice p 4 entityIDLen
          full := ⟨entry.payloadDigest, entry.originNodeID, entry.dotNodeID, entry.dotCounter,
            entry.systemTime, 0, 0, 0, 0, 0⟩
          nodeID := .copyFrom 16 (slice p off 16)
          counter := getU64 (slice p (off + 16) 8)
          entry := entry
          legacy := true }

def decodeMutationV2Payload (p : Bytes) : Except WALError WALMutation :=
  if p.length < 4 then .error .truncatedLengthPrefix
  else
    let entityIDLen := getBE (slice p 0 4)
    let need := 4 + entityIDLen + 16 + 8 + crdtEntryWireLen
    if p.length < need then .error (.truncatedPayload p.length need)
    else
      let off := 4 + entityIDLen
      let full := decodeCRDTEntry (slice p (off + 24) crdtEntryWireLen)
      .ok
        { entityID := slice p 4 entityIDLen
          full := full
          nodeID := .copyFrom 16 (slice p off 16)
          counter := getU64 (slice p (off + 16) 8)
          entry := .ofFull full
          legacy := false }

/-- `unwrapChecksummed`: the inner type byte and the inner payload. -/
def unwrapChecksummed (payload : Bytes) (seq : UInt64) : Except WALError (UInt8 × Bytes) :=
  if payload.length < 5 then .error (.corruptTooShort seq payload.length)
  else
    let body := payload.take (payload.length - 4)
    let want := getU32 (payload.drop (payload.length - 4))
    let got := crc32c body
    if want ≠ got then .error (.corruptCRC seq want got)
    else .ok (body.headD 0, body.tail)

/-! ### Round trips -/

theorem encodeCRDTEntry_length (e : CRDTEntry) : (encodeCRDTEntry e).length = crdtEntryWireLen := by
  simp [encodeCRDTEntry, crdtEntryWireLen]

@[simp] theorem decode_encodeCRDTEntry (e : CRDTEntry) : decodeCRDTEntry (encodeCRDTEntry e) = e := by
  simp [decodeCRDTEntry, encodeCRDTEntry, slice_skip, slice_head, slice_all]

/-- What replay makes of an appended mutation. -/
def WALMutation.readBack (m : WALMutation) : WALMutation :=
  { m with entry := .ofFull m.full, legacy := false }

theorem putMutationV2Payload_length (m : WALMutation) :
    (putMutationV2Payload m).length = 148 + m.entityID.length := by
  simp [putMutationV2Payload, encodeCRDTEntry_length, crdtEntryWireLen]
  omega

theorem decode_putMutationV2Payload (m : WALMutation) (h : m.entityID.length < 256 ^ 4) :
    decodeMutationV2Payload (putMutationV2Payload m) = .ok m.readBack := by
  have hlen := putMutationV2Payload_length m
  have hid : getBE (slice (putMutationV2Payload m) 0 4) = m.entityID.length := by
    rw [putMutationV2Payload, slice_head (putBE_length _ _), getBE_putBE_of_lt h]
  have hneed : ¬ (putMutationV2Payload m).length
      < 4 + m.entityID.length + 16 + 8 + crdtEntryWireLen := by
    rw [hlen, crdtEntryWireLen]
    omega
  rw [decodeMutationV2Payload, if_neg (by omega)]
  simp only [hid, if_neg hneed]
  have hfield : slice (putMutationV2Payload m) 4 m.entityID.length = m.entityID ∧
      slice (putMutationV2Payload m) (4 + m.entityID.length) 16 = m.nodeID.bytes ∧
      slice (putMutationV2Payload m) (4 + m.entityID.length + 16) 8 = putU64 m.counter ∧
      slice (putMutationV2Payload m) (4 + m.entityID.length + 24) crdtEntryWireLen
        = encodeCRDTEntry m.full := by
    simp [putMutationV2Payload, slice_skip, slice_head, slice_all, encodeCRDTEntry_length,
      Nat.add_assoc]
  obtain ⟨h1, h2, h3, h4⟩ := hfield
  rw [h1, h2, h3, h4, decode_encodeCRDTEntry, getU64_putU64, FixedBytes.copyFrom_self]
  rfl

end Sovereign.Wal
