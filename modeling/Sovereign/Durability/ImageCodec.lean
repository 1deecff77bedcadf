import Sovereign.Durability.Snapshot
import Sovereign.Lib.Checked
import Sovereign.Lib.StableSort

/-!
# The snapshot image codec on every byte string

`encodeSnapshotImage` and `decodeSnapshotImage` of `pkg/durability/snapshot.go`.  Here the decoder is
embedded with every access to its input and with the allocation of its result, as a `Checked` run, so that
a panic is one of its endings.

* `checkedDecodeSnapshotImage_eq` — no access is out of range: once the header is accepted the run ends as
  `decodeBody` says, unless the allocation panics.  The capacity of the allocation is the record count of
  the header, which nothing has compared with the length of the image: `Allocatable` is the condition.
* `encode_congr_iff` — the records are sorted by `(entity, dot)` with a stable sort, so the image depends on
  the order of the records exactly when two of them share entity and dot but differ.
* `rejected_of_set` — an image of version 3 with one byte changed is rejected.  The checksum finds every
  such change (`crc32c_set_ne`), a change of the version byte to 2 leaves the checksum as trailing bytes.
-/

namespace Sovereign.Durability

open Lib Sync Wal

/-! ### The decoder with its panics -/

/-- The errors of the decoder; an entry that is too short is reported by `decodeCRDTEntry` and wrapped
with the record's number. -/
inductive DecodeError where
  | image (err : SnapshotError)
  | entryWireTooShort (record length : ℕ)
deriving DecidableEq

/-- The size of a `SnapshotRecord` in memory: a string header and the entry. -/
def snapshotRecordSize : ℕ := 16 + 120

/-- `decodeCRDTEntry`; the error carries the length. -/
def checkedDecodeCRDTEntry (src : Bytes) : Checked ℕ CRDTEntry := do
  Checked.failIf (src.length < crdtEntryWireLen) src.length
  let payloadDigest ← Checked.slice src 0 32
  let originNodeID ← Checked.slice src 32 48
  let dotNodeID ← Checked.slice src 48 64
  let dotCounter ← Checked.slice src 64 72
  let systemTime ← Checked.slice src 72 80
  let validTimeStart ← Checked.slice src 80 88
  let validTimeEnd ← Checked.slice src 88 96
  let assertionTime ← Checked.slice src 96 104
  let decisionTime ← Checked.slice src 104 112
  let h3Index ← Checked.slice src 112 120
  pure
    { payloadDigest := .copyFrom 32 payloadDigest
      originNodeID := .copyFrom 16 originNodeID
      dotNodeID := .copyFrom 16 dotNodeID
      dotCounter := getU64 dotCounter
      systemTime := getI64 systemTime
      validTimeStart := getI64 validTimeStart
      validTimeEnd := getI64 validTimeEnd
      assertionTime := getI64 assertionTime
      decisionTime := getI64 decisionTime
      h3Index := getU64 h3Index }

/-- The loop over the records: `i` have been read, `count` are to come, `off` is the next byte. -/
def checkedDecodeRecords (data : Bytes) (i off : ℕ) :
    ℕ → Checked DecodeError (List SnapshotRecord × ℕ)
  | 0 => pure ([], off)
  | count + 1 => do
      Checked.failIf (data.length < off + 2) (.image (.truncatedLength i))
      let len ← Checked.slice data off (off + 2)
      let off := off + 2
      let eidLen := getBE len
      Checked.failIf (data.length < off + eidLen) (.image (.truncatedEntityID i))
      let entityID ← Checked.slice data off (off + eidLen)
      let off := off + eidLen
      Checked.failIf (data.length < off + crdtEntryWireLen) (.image (.truncatedEntry i))
      let src ← Checked.slice data off (off + crdtEntryWireLen)
      let entry ← (checkedDecodeCRDTEntry src).mapError (.entryWireTooShort i)
      let (rs, off) ← checkedDecodeRecords data (i + 1) (off + crdtEntryWireLen) count
      pure (⟨entityID, entry⟩ :: rs, off)

/-- The switch on the version: the image without its trailer. -/
def checkedImageBody (data : Bytes) : Checked DecodeError Bytes := do
  let version ← Checked.index data 4
  if version = snapshotVersionV3 then do
    Checked.failIf (data.length < snapshotHeaderSize + 4) (.image (.trailerTooShort data.length))
    let body ← Checked.slice data 0 (data.length - 4)
    let trailer ← Checked.sliceFrom data (data.length - 4)
    let want := getU32 trailer
    let got := crc32c body
    Checked.failIf (want ≠ got) (.image (.corrupt want got body.length))
    pure body
  else if version = snapshotVersionV2 then pure data
  else Checked.fail (.image (.badVersion version))

/-- The header fields and the records of an image without its trailer. -/
def checkedDecodeBody (data : Bytes) : Checked DecodeError SnapshotImage := do
  let lamportHigh ← Checked.slice data 5 13
  let count ← Checked.slice data 13 21
  let recordCount := getBE count
  let cutSeq ← Checked.slice data 21 29
  Checked.makeSlice snapshotRecordSize recordCount
  let root ← Checked.slice data 29 61
  let (records, off) ← checkedDecodeRecords data 0 snapshotHeaderSize recordCount
  Checked.failIf (off ≠ data.length) (.image (.trailing (data.length - off) recordCount))
  pure
    { records := records
      merkleRoot := .copyFrom 32 root
      lamportHigh := getU64 lamportHigh
      cutSeq := getU64 cutSeq }

def checkedDecodeSnapshotImage (data : Bytes) : Checked DecodeError SnapshotImage := do
  Checked.failIf (data.length < snapshotHeaderSize) (.image (.headerTooShort data.length))
  let magic ← Checked.slice data 0 4
  Checked.failIf (magic ≠ snapshotMagic) (.image (.badMagic magic))
  let body ← checkedImageBody data
  checkedDecodeBody body

/-! ### What the decoder computes -/

/-- A result of the model without panics. -/
def ofImage {α : Type} : Except SnapshotError α → Checked DecodeError α
  | .ok a => pure a
  | .error err => Checked.fail (.image err)

/-- The checks before the record count is read: the image without its trailer. -/
def imageBody (data : Bytes) : Except SnapshotError Bytes :=
  if data.length < snapshotHeaderSize then .error (.headerTooShort data.length)
  else if data.take 4 ≠ snapshotMagic then .error (.badMagic (data.take 4))
  else if (data.drop 4).headD 0 = snapshotVersionV3 then
    if data.length < snapshotHeaderSize + 4 then .error (.trailerTooShort data.length)
    else if getU32 (data.drop (data.length - 4)) ≠ crc32c (data.take (data.length - 4)) then
      .error (.corrupt (getU32 (data.drop (data.length - 4))) (crc32c (data.take (data.length - 4)))
        (data.take (data.length - 4)).length)
    else .ok (data.take (data.length - 4))
  else if (data.drop 4).headD 0 = snapshotVersionV2 then .ok data
  else .error (.badVersion ((data.drop 4).headD 0))

def recordCount (body : Bytes) : ℕ := getBE (slice body 13 8)

/-- The records that the header of an accepted image announces can be allocated. -/
def Allocatable (data : Bytes) : Prop :=
  ∀ body, imageBody data = .ok body → snapshotRecordSize * recordCount body ≤ Checked.maxAlloc

theorem decodeSnapshotImage_eq (data : Bytes) :
    decodeSnapshotImage data = (imageBody data).bind decodeBody := by
  unfold decodeSnapshotImage imageBody
  dsimp only
  split_ifs <;> rfl

variable {data body : Bytes} {image : SnapshotImage} {b : UInt8} {pos : ℕ} {rs : List SnapshotRecord}

theorem header_le_of_imageBody (h : imageBody data = .ok body) : snapshotHeaderSize ≤ body.length := by
  unfold imageBody at h
  split_ifs at h <;> cases h
  · rw [List.length_take]
    omega
  · omega

/-- What is accepted of version 3 is a body and its checksum. -/
theorem imageBody_v3 (h : imageBody data = .ok body) (hversion : (data.drop 4).headD 0 = snapshotVersionV3) :
    data = body ++ putU32 (crc32c body) ∧ body.take 4 = snapshotMagic ∧ snapshotHeaderSize ≤ body.length := by
  have hlen := header_le_of_imageBody h
  unfold imageBody at h
  rw [if_pos hversion] at h
  split_ifs at h with hshort hmagic htrail hcrc
  obtain rfl : data.take (data.length - 4) = body := by injection h
  have hdrop : (data.drop (data.length - 4)).length = 4 := by
    rw [List.length_drop]
    omega
  refine ⟨?_, ?_, hlen⟩
  · rw [← not_not.mp hcrc, putU32_getU32 hdrop, List.take_append_drop]
  · have htrail' : 65 ≤ data.length := Nat.not_lt.mp htrail
    rw [List.take_take, Nat.min_eq_left (by omega)]
    exact not_not.mp hmagic

theorem checkedDecodeCRDTEntry_eq {src : Bytes} (h : src.length = crdtEntryWireLen) :
    checkedDecodeCRDTEntry src = pure (decodeCRDTEntry src) := by
  rw [crdtEntryWireLen] at h
  rw [checkedDecodeCRDTEntry, Checked.failIf_bind_of_neg (by rw [crdtEntryWireLen]; omega)]
  simp only [Checked.slice_eq, h, Nat.reduceLeDiff, Nat.reduceSub, pure_bind]
  rfl

/-- The loop accesses nothing out of range and ends as `decodeRecords` on the rest of the data. -/
theorem checkedDecodeRecords_eq (data : Bytes) (i : ℕ) {off : ℕ} (count : ℕ) (h : off ≤ data.length) :
    checkedDecodeRecords data i off count
      = ofImage ((decodeRecords i count (data.drop off)).map
          fun p => (p.1, data.length - p.2.length)) := by
  induction count generalizing i off with
  | zero =>
    simp only [checkedDecodeRecords, decodeRecords, Except.map, ofImage, List.length_drop]
    rw [Nat.sub_sub_self h]
  | succ count ih =>
    rw [checkedDecodeRecords, decodeRecords]
    simp only [List.length_drop, List.drop_drop]
    refine Checked.failIf_bind_eq (fun x => ofImage (.map _ x)) (by omega) rfl fun hlen => ?_
    rw [Checked.slice_eq (by omega) (by omega), pure_bind, Nat.add_sub_cancel_left,
      show (data.drop off).take 2 = slice data off 2 from rfl]
    refine Checked.failIf_bind_eq (fun x => ofImage (.map _ x)) (by omega) rfl fun heid => ?_
    rw [Checked.slice_eq (by omega) (by omega), pure_bind, Nat.add_sub_cancel_left]
    refine Checked.failIf_bind_eq (fun x => ofImage (.map _ x)) (by omega) rfl fun hentry => ?_
    rw [Checked.slice_eq (by omega) (by omega), pure_bind, Nat.add_sub_cancel_left,
      checkedDecodeCRDTEntry_eq (slice_length (by omega)), ih (i + 1) (by omega)]
    cases decodeRecords (i + 1) count
        (data.drop (off + 2 + getBE (slice data off 2) + crdtEntryWireLen)) with
    | error err => rfl
    | ok p => rfl

theorem checkedImageBody_eq (hlen : snapshotHeaderSize ≤ data.length)
    (hmagic : data.take 4 = snapshotMagic) : checkedImageBody data = ofImage (imageBody data) := by
  have hlen' : 61 ≤ data.length := hlen
  have hversion : (data.drop 4).headD 0 = data[4] := by
    rw [List.drop_eq_getElem_cons (by omega)]
    rfl
  rw [checkedImageBody, Checked.index_eq (by omega : 4 < data.length), pure_bind, imageBody,
    if_neg (Nat.not_lt.mpr hlen), if_neg (not_not.mpr hmagic), hversion]
  by_cases h3 : data[4] = snapshotVersionV3
  · rw [if_pos h3, if_pos h3]
    refine Checked.failIf_bind_eq _ Iff.rfl rfl fun htrail => ?_
    rw [Checked.slice_eq (by omega) (by omega), pure_bind, Checked.sliceFrom_eq (by omega), pure_bind]
    exact Checked.failIf_bind_eq _ Iff.rfl rfl fun _ => rfl
  · rw [if_neg h3, if_neg h3]
    split_ifs <;> rfl

/-- What the loop leaves is at the end of the data. -/
theorem length_rest_le {i count : ℕ} {rest : Bytes}
    (h : decodeRecords i count data = .ok (rs, rest)) : rest.length ≤ data.length := by
  induction count generalizing i data rs with
  | zero =>
    cases h
    exact le_rfl
  | succ count ih =>
    rw [decodeRecords] at h
    dsimp only at h
    split_ifs at h
    split at h
    · cases h
    next rs' rest' heq =>
    cases h
    refine (ih heq).trans ?_
    simp only [List.length_drop]
    omega

/-- The rest of an accepted image, once its records are allocated. -/
theorem checkedDecodeBody_eq (hlen : snapshotHeaderSize ≤ body.length) :
    checkedDecodeBody body
      = Checked.makeSlice snapshotRecordSize (recordCount body) >>= fun _ => ofImage (decodeBody body) := by
  have hlen' : 61 ≤ body.length := hlen
  rw [checkedDecodeBody, Checked.slice_eq (by omega) (by omega), pure_bind,
    Checked.slice_eq (by omega) (by omega), pure_bind, Checked.slice_eq (by omega) (by omega), pure_bind,
    recordCount]
  refine bind_congr fun _ => ?_
  rw [Checked.slice_eq (by omega) (by omega), pure_bind, checkedDecodeRecords_eq _ _ _ hlen, decodeBody]
  cases hloop : decodeRecords 0 (getBE (slice body 13 8)) (body.drop snapshotHeaderSize) with
  | error err =>
    rfl
  | ok p =>
    obtain ⟨rs, rest⟩ := p
    have hrest := length_rest_le hloop
    rw [List.length_drop] at hrest
    simp only [Except.map, ofImage, pure_bind]
    by_cases hnil : rest = []
    · subst hnil
      rw [Checked.failIf_bind_of_neg (by simp), if_neg (by simp)]
    · have hpos := List.length_pos_iff.mpr hnil
      rw [Checked.failIf_bind_of_pos (by omega), if_pos hnil, Nat.sub_sub_self (by omega)]

/-- The decoder accesses nothing out of range: what is left of an accepted image is decoded once its
records are allocated. -/
theorem checkedDecodeSnapshotImage_eq (data : Bytes) :
    checkedDecodeSnapshotImage data
      = ofImage (imageBody data) >>= fun body =>
          Checked.makeSlice snapshotRecordSize (recordCount body) >>= fun _ => ofImage (decodeBody body) := by
  by_cases hlen : data.length < snapshotHeaderSize
  · rw [checkedDecodeSnapshotImage, Checked.failIf_bind_of_pos hlen, imageBody, if_pos hlen]
    rfl
  have hlen' : 61 ≤ data.length := Nat.not_lt.mp hlen
  rw [checkedDecodeSnapshotImage, Checked.failIf_bind_of_neg hlen, Checked.slice_eq (by omega) (by omega), pure_bind,
    show slice data 0 (4 - 0) = data.take 4 from rfl]
  by_cases hmagic : data.take 4 ≠ snapshotMagic
  · rw [Checked.failIf_bind_of_pos hmagic, imageBody, if_neg hlen, if_pos hmagic]
    rfl
  rw [Checked.failIf_bind_of_neg hmagic, checkedImageBody_eq (Nat.not_lt.mp hlen) (not_not.mp hmagic)]
  cases hbody : imageBody data with
  | error err => rfl
  | ok body =>
    rw [ofImage, pure_bind, pure_bind, checkedDecodeBody_eq (header_le_of_imageBody hbody)]

theorem ofImage_ne_panic {α : Type} (x : Except SnapshotError α) : (ofImage x).ending ≠ .panic := by
  cases x with
  | error err =>
    intro h
    cases h
  | ok a =>
    intro h
    cases h

/-- The decoder panics exactly when the records of an accepted header cannot be allocated. -/
theorem ne_panic_iff (data : Bytes) :
    (checkedDecodeSnapshotImage data).ending ≠ .panic ↔ Allocatable data := by
  rw [checkedDecodeSnapshotImage_eq]
  cases hbody : imageBody data with
  | error err =>
    refine ⟨fun _ body h => ?_, fun _ h => ?_⟩
    · rw [hbody] at h
      cases h
    · cases h
  | ok body =>
    rw [ofImage, pure_bind]
    by_cases hfits : snapshotRecordSize * recordCount body ≤ Checked.maxAlloc
    · rw [Checked.makeSlice, if_pos hfits]
      refine ⟨fun _ body' h => ?_, fun _ => ofImage_ne_panic (decodeBody body)⟩
      obtain rfl : body = body' := by
        rw [hbody] at h
        injection h
      exact hfits
    · rw [Checked.makeSlice, if_neg hfits]
      exact ⟨fun h => absurd rfl h, fun h => absurd (h body hbody) hfits⟩

/-- Where its records can be allocated the decoder ends as the model without panics. -/
theorem ending_eq (h : Allocatable data) :
    (checkedDecodeSnapshotImage data).ending = (ofImage (decodeSnapshotImage data)).ending := by
  rw [checkedDecodeSnapshotImage_eq, decodeSnapshotImage_eq]
  cases hbody : imageBody data with
  | error err => rfl
  | ok body =>
    rw [ofImage, pure_bind, Checked.makeSlice, if_pos (h body hbody)]
    rfl

/-! ### Round trip and order -/

/-- What every slice of records of a process satisfies. -/
def InMemory (records : List SnapshotRecord) : Prop :=
  snapshotRecordSize * records.length ≤ Checked.maxAlloc

/-- Entity and dot determine the record. -/
def OneEntryPerDot (records : List SnapshotRecord) : Prop :=
  ∀ r ∈ records, ∀ s ∈ records, r.key = s.key → r = s

theorem InMemory.length_lt {records : List SnapshotRecord} (h : InMemory records) :
    records.length < 256 ^ 8 := by
  rw [InMemory, snapshotRecordSize, Checked.maxAlloc] at h
  omega

theorem encode_ok (hids : ∀ r ∈ image.records, r.entityID.length ≤ 0xFFFF) :
    encodeSnapshotImage image
      = .ok ((snapshotHeader image ++ (sortRecords image.records).flatMap encodeRecord) ++
          putU32 (crc32c (snapshotHeader image ++ (sortRecords image.records).flatMap encodeRecord))) := by
  rw [encodeSnapshotImage, encodeRecords_eq fun r hr => hids r ((sortRecords_perm _).mem_iff.mp hr)]

theorem decode_encode (hmem : InMemory image.records) (h : encodeSnapshotImage image = .ok data) :
    decodeSnapshotImage data = .ok { image with records := sortRecords image.records } := by
  obtain ⟨heq, hids⟩ := decode_encodeSnapshotImage h
  rw [heq, decodeBody_encode hids, if_pos hmem.length_lt]

/-- The header of an encoded image announces the records that are in memory. -/
theorem allocatable_encode (hmem : InMemory image.records)
    (hids : ∀ r ∈ image.records, r.entityID.length ≤ 0xFFFF)
    (h : encodeSnapshotImage image = .ok data) : Allocatable data := by
  obtain rfl := Except.ok.inj ((encode_ok hids).symm.trans h)
  obtain ⟨-, hversion, -, hcount, -⟩ :=
    body_fields image ((sortRecords image.records).flatMap encodeRecord)
  set body := snapshotHeader image ++ (sortRecords image.records).flatMap encodeRecord with hbody
  have hlen : 61 ≤ body.length := by
    rw [hbody, List.length_append, snapshotHeader_length, snapshotHeaderSize]
    omega
  intro body' hbody'
  have hversion' : ((body ++ putU32 (crc32c body)).drop 4).headD 0 = snapshotVersionV3 := by
    rw [List.drop_append_of_le_length (by omega), List.drop_eq_getElem_cons (by omega)]
    rw [List.drop_eq_getElem_cons (by omega)] at hversion
    exact hversion
  have heq := (imageBody_v3 hbody' hversion').1
  have hlen' : body.length = body'.length := by simpa using congrArg List.length heq
  obtain ⟨rfl, -⟩ := List.append_inj heq hlen'
  rw [recordCount, hcount, getBE_putBE_of_lt hmem.length_lt]
  exact hmem

/-- The image does not depend on the order of the records exactly when no two of them share entity and dot
but differ. -/
theorem encode_congr_iff (hmem : InMemory image.records)
    (hids : ∀ r ∈ image.records, r.entityID.length ≤ 0xFFFF) :
    (∀ records, records.Perm image.records →
        encodeSnapshotImage { image with records } = encodeSnapshotImage image) ↔
      OneEntryPerDot image.records := by
  refine Iff.trans (forall₂_congr fun records hperm => ?_)
    (sortBy_congr_iff : (∀ records, records.Perm image.records →
      sortRecords records = sortRecords image.records) ↔ _)
  have hids' : ∀ r ∈ records, r.entityID.length ≤ 0xFFFF := fun r hr => hids r (hperm.mem_iff.mp hr)
  have hmem' : InMemory records := by rwa [InMemory, hperm.length_eq]
  refine ⟨fun h => ?_, fun h => ?_⟩
  · have hdata := encode_ok hids
    have hsorted := (decode_encode hmem' (h.trans hdata)).symm.trans (decode_encode hmem hdata)
    exact congrArg SnapshotImage.records (Except.ok.inj hsorted)
  · have hheader : snapshotHeader { image with records } = snapshotHeader image := by
      rw [snapshotHeader, snapshotHeader, hperm.length_eq]
    have hencode := encode_ok (show ∀ r ∈ { image with records }.records, r.entityID.length ≤ 0xFFFF from hids')
    have hsort : sortRecords { image with records }.records = sortRecords image.records := h
    rw [hencode, encode_ok hids, hheader, hsort]

/-! ### One byte changed -/

theorem set_ne_self {bs : Bytes} (h : pos < bs.length) (hne : bs[pos]? ≠ some b) : bs.set pos b ≠ bs := by
  intro heq
  have hget := congrArg (·[pos]?) heq
  rw [List.getElem?_set_self h] at hget
  exact hne hget.symm

theorem crc32c_set_ne {bs : Bytes} (h : pos < bs.length) (hne : bs[pos]? ≠ some b) :
    crc32c (bs.set pos b) ≠ crc32c bs := by
  have hb : b ≠ bs[pos] := fun heq => hne (by rw [heq, List.getElem?_eq_getElem h])
  have hset : bs.set pos b = bs.take pos ++ b :: bs.drop (pos + 1) := List.set_eq_take_append_cons_drop.trans (if_pos h)
  have hself : bs = bs.take pos ++ bs[pos] :: bs.drop (pos + 1) := by
    rw [← List.drop_eq_getElem_cons h, List.take_append_drop]
  rw [hset]
  exact fun heq => crc32c_ne_of_byte _ _ hb (heq.trans (congrArg crc32c hself))

theorem decodeRecords_append {i count : ℕ} {rest : Bytes}
    (h : decodeRecords i count data = .ok (rs, rest)) (more : Bytes) :
    decodeRecords i count (data ++ more) = .ok (rs, rest ++ more) := by
  induction count generalizing i data rs with
  | zero =>
    cases h
    rfl
  | succ count ih =>
    rw [decodeRecords] at h
    dsimp only at h
    split_ifs at h with hlen heid hentry
    split at h
    · cases h
    next rs' rest' heq =>
    cases h
    rw [List.length_drop] at heid hentry
    rw [List.length_drop] at hentry
    rw [decodeRecords]
    dsimp only
    rw [List.take_append_of_le_length (by omega), List.drop_append_of_le_length (by omega),
      List.take_append_of_le_length (by rw [List.length_drop]; omega),
      List.drop_append_of_le_length (by rw [List.length_drop]; omega),
      List.take_append_of_le_length (by simp only [List.length_drop]; omega),
      List.drop_append_of_le_length (by simp only [List.length_drop]; omega), ih heq,
      if_neg (by rw [List.length_append]; omega),
      if_neg (by simp only [List.length_append, List.length_drop]; omega),
      if_neg (by simp only [List.length_append, List.length_drop]; omega)]

theorem version_of_imageBody (h : imageBody data = .ok body) :
    (data.drop 4).headD 0 = snapshotVersionV3 ∨ (data.drop 4).headD 0 = snapshotVersionV2 := by
  unfold imageBody at h
  split_ifs at h with hlen hmagic h3 htrail hcrc h2
  · exact .inl h3
  · exact .inr h2

theorem version_set (h : 4 < data.length) (pos : ℕ) (b : UInt8) :
    ((data.set pos b).drop 4).headD 0 = if pos = 4 then b else (data.drop 4).headD 0 := by
  have hget : ∀ bs : Bytes, (hbs : 4 < bs.length) → (bs.drop 4).headD 0 = bs[4] := by
    intro bs hbs
    rw [List.drop_eq_getElem_cons hbs]
    rfl
  rw [hget _ (by rwa [List.length_set]), hget _ h, List.getElem_set]

/-- A body and its checksum are no longer one when a byte of either is changed. -/
theorem set_ne_checksummed {body' : Bytes} (hpos : pos < (body ++ putU32 (crc32c body)).length)
    (hne : (body ++ putU32 (crc32c body))[pos]? ≠ some b) :
    (body ++ putU32 (crc32c body)).set pos b ≠ body' ++ putU32 (crc32c body') := by
  intro heq
  have hlen : body.length = body'.length := by simpa using congrArg List.length heq
  rw [List.set_append] at heq
  split at heq
  next hleft =>
    obtain ⟨rfl, hcrc⟩ := List.append_inj heq (by rwa [List.length_set])
    rw [List.getElem?_append_left hleft] at hne
    exact crc32c_set_ne hleft hne (putU32_injective hcrc).symm
  next hright =>
    obtain ⟨rfl, hcrc⟩ := List.append_inj heq hlen
    rw [List.getElem?_append_right (Nat.not_lt.mp hright)] at hne
    rw [List.length_append] at hpos
    exact set_ne_self (by omega) hne hcrc

theorem ending_of_imageBody {err : SnapshotError} (h : imageBody data = .error err) :
    (checkedDecodeSnapshotImage data).ending = .error (.image err) := by
  rw [checkedDecodeSnapshotImage_eq, h]
  rfl

/-- With the version byte changed to 2 the checksum becomes trailing bytes. -/
theorem rejected_as_v2 (hlen : snapshotHeaderSize ≤ body.length)
    (hmagic : body.take 4 = snapshotMagic) (hdecode : decodeBody body = .ok image)
    (hfits : snapshotRecordSize * recordCount body ≤ Checked.maxAlloc) {more : Bytes} (hmore : more ≠ []) :
    ∃ err, (checkedDecodeSnapshotImage ((body ++ more).set 4 snapshotVersionV2)).ending = .error err := by
  have hlen' : 61 ≤ body.length := hlen
  have hset : (body ++ more).set 4 snapshotVersionV2 = body.set 4 snapshotVersionV2 ++ more :=
    List.set_append_left _ _ (by omega)
  have hbodyset : (body.set 4 snapshotVersionV2).length = body.length := List.length_set
  -- what lies behind the version byte is as before
  have hdrop : ∀ n, 5 ≤ n → n ≤ 61 →
      (body.set 4 snapshotVersionV2 ++ more).drop n = body.drop n ++ more := by
    intro n hn hn'
    rw [List.drop_append_of_le_length (by omega), List.drop_set, if_pos (by omega)]
  have hcount : recordCount (body.set 4 snapshotVersionV2 ++ more) = recordCount body := by
    rw [recordCount, recordCount, slice, slice, hdrop 13 (by omega) (by omega),
      List.take_append_of_le_length (by rw [List.length_drop]; omega)]
  have hbody : imageBody (body.set 4 snapshotVersionV2 ++ more)
      = .ok (body.set 4 snapshotVersionV2 ++ more) := by
    have hversion : ((body.set 4 snapshotVersionV2 ++ more).drop 4).headD 0 = snapshotVersionV2 := by
      rw [List.drop_append_of_le_length (by omega), List.drop_set, if_neg (by omega), Nat.sub_self,
        List.drop_eq_getElem_cons (by omega)]
      rfl
    have hmagic' : (body.set 4 snapshotVersionV2 ++ more).take 4 = snapshotMagic := by
      rw [List.take_append_of_le_length (by omega), List.take_set_of_le (le_refl 4), hmagic]
    rw [imageBody, if_neg (by rw [List.length_append, hbodyset]; omega), if_neg (not_not.mpr hmagic'), hversion,
      if_neg (by decide), if_pos rfl]
  rw [hset, checkedDecodeSnapshotImage_eq, hbody, ofImage, pure_bind, hcount, Checked.makeSlice, if_pos hfits]
  -- the loop reads the same records and stops before the checksum
  have hreject : ∃ err, decodeBody (body.set 4 snapshotVersionV2 ++ more) = .error err := by
    unfold decodeBody at hdecode ⊢
    rw [show getBE (slice (body.set 4 snapshotVersionV2 ++ more) 13 8) = getBE (slice body 13 8) from hcount,
      hdrop snapshotHeaderSize (by decide) le_rfl]
    dsimp only at hdecode ⊢
    split at hdecode
    · cases hdecode
    next rs rest hloop =>
    rw [decodeRecords_append hloop more]
    exact ⟨_, if_pos fun hnil => hmore (List.append_eq_nil_iff.mp hnil).2⟩
  obtain ⟨err, herr⟩ := hreject
  rw [herr]
  exact ⟨_, rfl⟩

/-- An accepted image of version 3 with one byte changed is rejected, and never for want of memory. -/
theorem rejected_of_set (h : (checkedDecodeSnapshotImage data).ending = .value image)
    (hversion : (data.drop 4).headD 0 = snapshotVersionV3) (hpos : pos < data.length)
    (hne : data[pos]? ≠ some b) :
    ∃ err, (checkedDecodeSnapshotImage (data.set pos b)).ending = .error err := by
  have halloc : Allocatable data := (ne_panic_iff data).mp (by rw [h]; simp)
  rw [ending_eq halloc, decodeSnapshotImage_eq] at h
  cases hbody : imageBody data with
  | error err =>
    rw [hbody] at h
    cases h
  | ok body =>
  have hdecode : decodeBody body = .ok image := by
    rw [hbody] at h
    change (ofImage (decodeBody body)).ending = .value image at h
    cases hd : decodeBody body with
    | error err =>
      rw [hd] at h
      cases h
    | ok image' =>
      rw [hd] at h
      cases h
      rfl
  obtain ⟨rfl, hmagic, hlen⟩ := imageBody_v3 hbody hversion
  have hlen' : 61 ≤ body.length := hlen
  by_cases h2 : pos = 4 ∧ b = snapshotVersionV2
  · obtain ⟨rfl, rfl⟩ := h2
    refine rejected_as_v2 hlen hmagic hdecode (halloc body hbody) fun hnil => ?_
    have hzero := congrArg List.length hnil
    simp at hzero
  -- otherwise the image would still be one of version 3
  cases hbody' : imageBody ((body ++ putU32 (crc32c body)).set pos b) with
  | error err => exact ⟨_, ending_of_imageBody hbody'⟩
  | ok body' =>
    have hversion' : (((body ++ putU32 (crc32c body)).set pos b).drop 4).headD 0 = snapshotVersionV3 := by
      refine (version_of_imageBody hbody').resolve_right fun h2' => ?_
      rw [version_set (by rw [List.length_append]; omega)] at h2'
      split at h2'
      next hpos4 => exact h2 ⟨hpos4, h2'⟩
      · rw [hversion] at h2'
        exact absurd h2' (by decide)
    exact absurd (imageBody_v3 hbody' hversion').1 (set_ne_checksummed hpos hne)

/-! ### The codec -/

/-- **The codec.**  Every slice of records with identifiers that fit is read back with the header fields
and in canonical order, and its image does not depend on the order of the records exactly when entity and
dot determine the record.  A byte string is decoded or rejected without a panic exactly when the record
count of its accepted header can be allocated.  An accepted image of version 3 with one byte changed is
rejected. -/
theorem image_codec_iff (image : SnapshotImage) :
    (InMemory image.records → (∀ r ∈ image.records, r.entityID.length ≤ 0xFFFF) →
      ∃ data, encodeSnapshotImage image = .ok data ∧
        (checkedDecodeSnapshotImage data).ending
          = .value { image with records := sortRecords image.records } ∧
        (sortRecords image.records).Perm image.records ∧
        WeaklyAscending compareKeys IncomingEntry.key (sortRecords image.records) ∧
        ((∀ records, records.Perm image.records →
            encodeSnapshotImage { image with records } = .ok data) ↔ OneEntryPerDot image.records)) ∧
    (∀ data, (checkedDecodeSnapshotImage data).ending ≠ .panic ↔ Allocatable data) ∧
    ∀ data decoded, (checkedDecodeSnapshotImage data).ending = .value decoded →
      (data.drop 4).headD 0 = snapshotVersionV3 → ∀ pos b, pos < data.length → data[pos]? ≠ some b →
        ∃ err, (checkedDecodeSnapshotImage (data.set pos b)).ending = .error err := by
  refine ⟨fun hmem hids => ?_, ne_panic_iff, fun data decoded h hversion pos b hpos hne =>
    rejected_of_set h hversion hpos hne⟩
  have hdata := encode_ok hids
  refine ⟨_, hdata, ?_, sortRecords_perm _, weaklyAscending_sortBy _, ?_⟩
  · have hdecode := decode_encode hmem hdata
    rw [ending_eq (allocatable_encode hmem hids hdata), hdecode]
    rfl
  · rw [← hdata]
    exact encode_congr_iff hmem hids

def sampleRecord (systemTime : Int64) : SnapshotRecord :=
  ⟨[0x65], ⟨.zero 32, .zero 16, .zero 16, 1, systemTime, 0, 0, 0, 0, 0⟩⟩

def sampleImage : SnapshotImage := ⟨[sampleRecord 7], .zero 32, 1, 2⟩

theorem image_codec_on_sample :
    InMemory sampleImage.records ∧
      ∃ data, encodeSnapshotImage sampleImage = .ok data ∧
        (checkedDecodeSnapshotImage data).ending = .value sampleImage ∧
        ∃ err, (checkedDecodeSnapshotImage (data.set 70 0xFF)).ending = .error err := by
  have hmem : InMemory sampleImage.records := by
    unfold InMemory
    decide
  have hids : ∀ r ∈ sampleImage.records, r.entityID.length ≤ 0xFFFF := by decide
  obtain ⟨data, hdata, hvalue, -⟩ := (image_codec_iff sampleImage).1 hmem hids
  have hbytes := Except.ok.inj ((encode_ok hids).symm.trans hdata)
  refine ⟨hmem, data, hdata, hvalue, (image_codec_iff sampleImage).2.2 data _ hvalue ?_ 70 0xFF ?_ ?_⟩ <;>
    (rw [← hbytes]; decide +kernel)

/-- A header of version 2 and nothing else, which announces `2 ^ 63` records. -/
def hugeCountImage : Bytes :=
  snapshotMagic ++ ([snapshotVersionV2] ++ (putU64 0 ++ (putBE 8 (2 ^ 63) ++ (putU64 0 ++ List.replicate 32 0))))

/-- The decoder panics on a truncated image with a large record count, and the images of two records that
share entity and dot depend on their order. -/
theorem huge_record_count_panics :
    (checkedDecodeSnapshotImage hugeCountImage).ending = .panic ∧
      encodeSnapshotImage ⟨[sampleRecord 7, sampleRecord 8], .zero 32, 1, 2⟩
        ≠ encodeSnapshotImage ⟨[sampleRecord 8, sampleRecord 7], .zero 32, 1, 2⟩ := by
  decide +kernel

end Sovereign.Durability
