import Sovereign.Wal.Codec

/-!
# The write-ahead log: appending, opening, replaying

The log file is its byte string.  An append writes one encoded record at the end and, when the write
succeeded, takes the next sequence number; a write that fails may leave any first part of
the record behind (`WriteOutcome.fails`), and the appender does not take it back.  `openWAL` looks
for the last complete record and cuts the file there; `replayWAL` parses the file from the start,
with its own checks.

Both scans stop at the first incomplete record: a short header or a payload that runs past the end of
the file is read as the torn tail of a crash.  The loops take as fuel the number of bytes they
look at, plus one; every round consumes at least the thirteen bytes of a header, so they
never run out.
-/

namespace Sovereign.Wal

open Lib Sync

/-! ### Files -/

def maxRecordPayloadLen : ℕ := 4194304

def maxCredibleClockHigh : UInt64 := 0x1000000000000000

/-- `writeHeader`: magic, version, two zero bytes. -/
def fileHeader : Bytes := putBE 4 0x57414C00 ++ (putBE 2 1 ++ [0, 0])

/-- `verifyHeader`, and the same checks at the start of `ReplayWAL`. -/
def verifyHeader (file : Bytes) : Except WALError Unit :=
  if file.length < 8 then .error .shortFileHeader
  else if getBE (slice file 0 4) ≠ 0x57414C00 then .error .badMagic
  else if getBE (slice file 4 2) ≠ 1 then .error (.badVersion (getBE (slice file 4 2)))
  else .ok ()

/-- The 13 bytes before a payload. -/
structure RecordHeader where
  seq : UInt64
  recType : UInt8
  payloadLen : ℕ

/-- `io.ReadFull` of a record header; `none` at the end of the file, or when it is torn. -/
def readHeader (bs : Bytes) : Option (RecordHeader × Bytes) :=
  if bs.length < 13 then none
  else some (⟨getU64 (slice bs 0 8), (slice bs 8 1).headD 0, getBE (slice bs 9 4)⟩, bs.drop 13)

/-- The loop of `scanRecords`: next sequence number, number of records, end of the last good one. -/
def scanLoop : ℕ → Bytes → UInt64 → ℕ → ℕ → UInt64 × ℕ × ℕ
  | 0, _, nextSeq, count, lastGood => (nextSeq, count, lastGood)
  | fuel + 1, bs, nextSeq, count, lastGood =>
    match readHeader bs with
    | none => (nextSeq, count, lastGood)
    | some (h, rest) =>
      if rest.length < h.payloadLen then (nextSeq, count, lastGood)
      else
        scanLoop fuel (rest.drop h.payloadLen) (if nextSeq ≤ h.seq then h.seq + 1 else nextSeq)
          (count + 1) (lastGood + (13 + h.payloadLen))

def scanRecords (file : Bytes) : UInt64 × ℕ × ℕ :=
  scanLoop (file.length + 1) (file.drop 8) 0 0 8

/-- An open log: its file and the sequence number of the next record. -/
structure WAL where
  file : Bytes
  nextSeq : UInt64
deriving DecidableEq

def openWAL (file : Bytes) : Except WALError WAL :=
  if file.isEmpty then .ok ⟨fileHeader, 0⟩
  else
    match verifyHeader file with
    | .error err => .error err
    | .ok () => .ok ⟨file.take (scanRecords file).2.2, (scanRecords file).1⟩

/-! ### Appending -/

/-- What an appender is given. -/
inductive LogEntry where
  | mutation (m : WALMutation)
  | checkpoint (c : WALCheckpoint)
  | clockAdvance (advancedTo : UInt64)
deriving DecidableEq

/-- The record written for an entry. -/
def LogEntry.encode (seq : UInt64) : LogEntry → Bytes
  | .mutation m => encodeMutationV2Checksummed seq m
  | .checkpoint c => encodeCheckpointChecksummed seq c
  | .clockAdvance v => encodeClockAdvanceChecksummed seq v

/-- How a write ends: it may fail with some bytes of its first part in the file. -/
inductive WriteOutcome where
  | ok
  | fails (persisted : ℕ)
deriving DecidableEq

/-- The bytes of the record that a failed write left. -/
def WriteOutcome.persisted : WriteOutcome → ℕ
  | .ok => 0
  | .fails n => n

inductive AppendError where
  | invalid (err : WALError)
  | write
  | fsync
deriving DecidableEq

namespace WAL

/-- Encode with the next sequence number and write; the number is taken if the write succeeds. -/
def write (w : WAL) (e : LogEntry) : WriteOutcome → WAL × Bool
  | .ok => (⟨w.file ++ e.encode w.nextSeq, w.nextSeq + 1⟩, true)
  | .fails persisted => ({ w with file := w.file ++ (e.encode w.nextSeq).take persisted }, false)

def writeSync (w : WAL) (e : LogEntry) (outcome : WriteOutcome) (synced : Bool) :
    WAL × Except AppendError Unit :=
  match w.write e outcome with
  | (w', false) => (w', .error .write)
  | (w', true) => (w', if synced then .ok () else .error .fsync)

def appendMutation (w : WAL) (m : WALMutation) (outcome : WriteOutcome) (synced : Bool) :
    WAL × Except AppendError Unit :=
  match validateV2 m with
  | .error err => (w, .error (.invalid err))
  | .ok () => w.writeSync (.mutation m) outcome synced

/-- The loop of `AppendMutations`; the result has the index of the first failure. -/
def appendMutationsLoop : WAL → ℕ → List WALMutation → (ℕ → WriteOutcome) →
    WAL × Except (ℕ × AppendError) Unit
  | w, _, [], _ => (w, .ok ())
  | w, i, m :: ms, outcome =>
    match validateV2 m with
    | .error err => (w, .error (i, .invalid err))
    | .ok () =>
      match w.write (.mutation m) (outcome i) with
      | (w', false) => (w', .error (i, .write))
      | (w', true) => appendMutationsLoop w' (i + 1) ms outcome

/-- `AppendMutations`: all writes, then one flush. -/
def appendMutations (w : WAL) (ms : List WALMutation) (outcome : ℕ → WriteOutcome) (synced : Bool) :
    WAL × Except AppendError Unit :=
  match w.appendMutationsLoop 0 ms outcome with
  | (w', .error (_, err)) => (w', .error err)
  | (w', .ok ()) => (w', if synced then .ok () else .error .fsync)

def appendCheckpoint (w : WAL) (c : WALCheckpoint) (outcome : WriteOutcome) (synced : Bool) :
    WAL × Except AppendError Unit := w.writeSync (.checkpoint c) outcome synced

def appendClockAdvance (w : WAL) (advancedTo : UInt64) (outcome : WriteOutcome) (synced : Bool) :
    WAL × Except AppendError Unit := w.writeSync (.clockAdvance advancedTo) outcome synced

end WAL

/-! ### Replaying -/

/-- `WALRecord`: a mutation or a clock advance, in log order. -/
inductive WALRecord where
  | mutation (recType : WALRecordType) (m : WALMutation) (seq : UInt64)
  | clockAdvance (advancedTo : UInt64) (seq : UInt64)
deriving DecidableEq

structure Replayed where
  mutations : List WALMutation
  advances : List UInt64
  ordered : List WALRecord
  finalCheckpt : WALCheckpoint
  hasCheckpoint : Bool
  lamportHigh : UInt64
  nextSeq : UInt64
  finalCheckptSeq : UInt64
  legacyCheckpoint : Bool
  seqContiguityVerified : Bool
  recordsVerified : ℕ
  clockHighClamped : Bool
  clockHighRaw : UInt64
deriving DecidableEq

def Replayed.empty : Replayed := ⟨[], [], [], .zero, false, 0, 0, 0, false, false, 0, false, 0⟩

/-- `if c > high { high = c }`. -/
def raise (high c : UInt64) : UInt64 := if high < c then c else high

namespace Replayed

def count (out : Replayed) (seq : UInt64) : Replayed :=
  { out with
    recordsVerified := out.recordsVerified + 1
    nextSeq := if out.nextSeq ≤ seq then seq + 1 else out.nextSeq }

def addMutation (out : Replayed) (recType : WALRecordType) (m : WALMutation) (seq : UInt64) :
    Replayed :=
  { out with
    mutations := out.mutations ++ [m]
    ordered := out.ordered ++ [.mutation recType m seq]
    lamportHigh := raise out.lamportHigh m.counter }

def addAdvance (out : Replayed) (advancedTo seq : UInt64) : Replayed :=
  { out with
    advances := out.advances ++ [advancedTo]
    ordered := out.ordered ++ [.clockAdvance advancedTo seq]
    lamportHigh := raise out.lamportHigh advancedTo }

/-- The checkpoint cases: the last checkpoint wins. -/
def addCheckpoint (out : Replayed) (c : WALCheckpoint) (legacy : Bool) (seq : UInt64) : Replayed :=
  { out with
    finalCheckpt := c
    hasCheckpoint := true
    finalCheckptSeq := seq
    legacyCheckpoint := legacy
    lamportHigh := raise out.lamportHigh c.lamportHigh }

/-- The plausibility clamp on the clock of a V2 checkpoint that has one. -/
def clampClock (out : Replayed) (c : WALCheckpoint) : Replayed × WALCheckpoint :=
  if maxCredibleClockHigh < c.clockHigh then
    ({ out with clockHighClamped := true, clockHighRaw := raise out.clockHighRaw c.clockHigh },
      { c with clockHigh := raise out.lamportHigh c.lamportHigh })
  else (out, c)

/-- The type switch of `ReplayWAL`. -/
def absorb (out : Replayed) (seq : UInt64) (recType : UInt8) (payload : Bytes) :
    Except WALError Replayed :=
  match WALRecordType.ofByte recType with
  | some .mutation =>
    match decodeMutationPayload payload with
    | .error err => .error err
    | .ok m => .ok (out.addMutation .mutation m seq)
  | some .mutationV2 =>
    match decodeMutationV2Payload payload with
    | .error err => .error err
    | .ok m => .ok (out.addMutation .mutationV2 m seq)
  | some .clockAdvance =>
    if payload.length < 8 then .error (.shortClockAdvance seq)
    else .ok (out.addAdvance (getU64 (slice payload 0 8)) seq)
  | some .checkpoint =>
    if payload.length < 40 then .error (.shortCheckpoint seq)
    else
      .ok (out.addCheckpoint
        { WALCheckpoint.zero with
          merkleRoot := .copyFrom 32 (slice payload 0 32)
          lamportHigh := getU64 (slice payload 32 8) } true seq)
  | some .checkpointV2 =>
    if payload.length < 48 then .error (.shortCheckpointV2 seq)
    else
      let base : WALCheckpoint :=
        { WALCheckpoint.zero with
          merkleRoot := .copyFrom 32 (slice payload 0 32)
          lamportHigh := getU64 (slice payload 32 8)
          cutSeq := getU64 (slice payload 40 8)
          hasCutSeq := true }
      let (out, c) :=
        if 56 ≤ payload.length then
          out.clampClock { base with clockHigh := getU64 (slice payload 48 8) }
        else (out, base)
      let c :=
        if 88 ≤ payload.length then
          { c with fingerprint := .copyFrom 32 (slice payload 56 32), hasFingerprint := true }
        else c
      .ok (out.addCheckpoint c (!c.hasFingerprint) seq)
  | some .checksummed => .error (.unknownType recType seq)
  | none => .error (.unknownType recType seq)

/-- The unwrapping of a checksummed record, and the type switch. -/
def absorbRecord (out : Replayed) (seq : UInt64) (recType : UInt8) (payload : Bytes) :
    Except WALError Replayed :=
  if recType = WALRecordType.checksummed.toByte then
    match unwrapChecksummed payload seq with
    | .error err => .error err
    | .ok (innerType, inner) => out.absorb seq innerType inner
  else out.absorb seq recType payload

end Replayed

def replayLoop : ℕ → Bytes → UInt64 → Replayed → Except WALError Replayed
  | 0, _, _, out => .ok out
  | fuel + 1, bs, prevSeq, out =>
    match readHeader bs with
    | none => .ok out
    | some (h, rest) =>
      if maxRecordPayloadLen < h.payloadLen then .error (.payloadTooLong h.payloadLen h.seq)
      else if out.recordsVerified = 0 ∧ h.seq ≠ 0 then .error (.seqGapFirst h.seq)
      else if 0 < out.recordsVerified ∧ h.seq ≠ prevSeq + 1 then
        .error (.seqGap (prevSeq + 1) h.seq out.recordsVerified)
      else if rest.length < h.payloadLen then .ok out
      else
        match (out.count h.seq).absorbRecord h.seq h.recType (rest.take h.payloadLen) with
        | .error err => .error err
        | .ok out' => replayLoop fuel (rest.drop h.payloadLen) h.seq out'

def replayWAL (file : Bytes) : Except WALError Replayed :=
  match verifyHeader file with
  | .error err => .error err
  | .ok () =>
    match replayLoop (file.length + 1) (file.drop 8) 0 .empty with
    | .error err => .error err
    | .ok out => .ok { out with seqContiguityVerified := true }

end Sovereign.Wal
