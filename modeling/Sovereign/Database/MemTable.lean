import Sovereign.Database.Store

/-!
# The MemTable

`internal/database/memtable.go`, `skiplist_arena.go` and `l0_flusher.go`: events are packed into the
arena of a skip list, and a flush writes the arena out, one Arrow file for each entity.

* `packKey`, `packValue`, `unpackRow` — the bytes of a node, and what a flush reads from them
  (`unpackRow_pack`);
* `Arena.put` — nodes grow from the front of the arena, data from its back; a call that runs out of room
  leaves its node behind;
* `MemTable.write` — the checks of the event, then `Put`; a full arena is swapped out and handed to a
  goroutine (`MemTable.frozen`);
* `partitions`, `MemTable.flush`, `MemTable.background` — the flushes.  An upload that fails may be
  answered by a file in the fallback directory, which no reader looks at.

The skip list is its lowest level, a list of nodes in the order of their keys, under one writer; the
counters and the pruning by a tombstone compactor, which nothing sets, are left out.  The semaphore of
the background flushes only delays a writer, and contexts are not cancelled.  Offsets are natural
numbers: an arena is shorter than `2 ^ 32`, so none of them wraps.
-/

namespace Sovereign.Database

open Lib Sync

/-! ### The bytes of a node -/

def putTime (t : Int64) : Bytes := putU64 t.toUInt64

def getTime (bs : Bytes) : Int64 := (getU64 bs).toInt64

@[simp] theorem length_putTime (t : Int64) : (putTime t).length = 8 := putU64_length _

@[simp] theorem getTime_putTime (t : Int64) : getTime (putTime t) = t := by
  simp [getTime, putTime]

/-- The key of a node: hash, system time, start of the valid time, assertion time. -/
def packKey (hash : FixedBytes 16) (ev : TriTemporalEvent) : Bytes :=
  hash.bytes ++ (putTime ev.systemTime ++ (putTime ev.validTimeStart ++ putTime ev.assertionTime))

/-- The value of a node: entity, H3 index, end of the valid time, digest, payload. -/
def packValue (ev : TriTemporalEvent) : Bytes :=
  putLE 2 (ev.entityID.length % 2 ^ 16) ++ (ev.entityID ++ (putLE 8 ev.h3Index.toNat ++
    (putLE 8 ev.validTimeEnd.toUInt64.toNat ++ (ev.payloadDigest.bytes ++
      (putLE 4 (ev.payload.length % 2 ^ 32) ++ ev.payload)))))

/-- What a flush reads from a node. -/
def unpackRow (key val : Bytes) : Row :=
  let entityIDLen := getLE (slice val 0 2)
  let off := 2 + entityIDLen
  { entityIDHash := .copyFrom 16 (slice key 0 16)
    systemTime := getTime (slice key 16 8)
    validTimeStart := getTime (slice key 24 8)
    assertionTime := getTime (slice key 32 8)
    entityID := slice val 2 entityIDLen
    h3Index := UInt64.ofNat (getLE (slice val off 8))
    validTimeEnd := (UInt64.ofNat (getLE (slice val (off + 8) 8))).toInt64
    payloadDigest := .copyFrom 32 (slice val (off + 16) 32)
    payload := slice val (off + 52) (getLE (slice val (off + 48) 4)) }

def TriTemporalEvent.row (ev : TriTemporalEvent) (hash : FixedBytes 16) : Row :=
  { ev with entityIDHash := hash }

theorem length_packKey (hash : FixedBytes 16) (ev : TriTemporalEvent) : (packKey hash ev).length = 40 := by
  simp [packKey]

theorem length_packValue (ev : TriTemporalEvent) :
    (packValue ev).length = 54 + ev.entityID.length + ev.payload.length := by
  simp [packValue]
  omega

theorem getLE_putLE_word (x : UInt64) : UInt64.ofNat (getLE (putLE 8 x.toNat)) = x := by
  rw [getLE_putLE_of_lt (toNat_lt_256_pow_8 x), UInt64.ofNat_toNat]

/-- **A node is read back**, if entity and payload fit their length fields. -/
theorem unpackRow_pack (hash : FixedBytes 16) {ev : TriTemporalEvent} (hid : ev.entityID.length < 2 ^ 16)
    (hpayload : ev.payload.length < 2 ^ 32) :
    unpackRow (packKey hash ev) (packValue ev) = ev.row hash := by
  set val := packValue ev with hval
  have hlen : getLE (slice val 0 2) = ev.entityID.length := by
    rw [hval, packValue, slice_head (putLE_length _ _), Nat.mod_eq_of_lt hid,
      getLE_putLE_of_lt (by omega)]
  -- behind the length and the entity, every field has its place
  have hrest : ∀ off len, slice val (2 + ev.entityID.length + off) len = slice (putLE 8 ev.h3Index.toNat ++
      (putLE 8 ev.validTimeEnd.toUInt64.toNat ++ (ev.payloadDigest.bytes ++
        (putLE 4 (ev.payload.length % 2 ^ 32) ++ ev.payload)))) off len := by
    intro off len
    rw [hval, packValue, ← List.append_assoc, slice_skip (by simp)]
    congr 1
    simp
  have hh3 : UInt64.ofNat (getLE (slice val (2 + ev.entityID.length) 8)) = ev.h3Index := by
    rw [← Nat.add_zero (2 + _), hrest, slice_head (putLE_length _ _), getLE_putLE_word]
  have hend : (UInt64.ofNat (getLE (slice val (2 + ev.entityID.length + 8) 8))).toInt64 = ev.validTimeEnd := by
    rw [hrest, slice_skip (by simp), putLE_length, Nat.sub_self, slice_head (putLE_length _ _),
      getLE_putLE_word]
    simp
  have hdigest : FixedBytes.copyFrom 32 (slice val (2 + ev.entityID.length + 16) 32) = ev.payloadDigest := by
    rw [hrest]
    simp [slice_skip, slice_head]
  have hplen : getLE (slice val (2 + ev.entityID.length + 48) 4) = ev.payload.length := by
    rw [hrest, Nat.mod_eq_of_lt hpayload]
    simp only [slice_skip, slice_head, FixedBytes.length_bytes, putLE_length, Nat.reduceLeDiff,
      Nat.reduceSub]
    exact getLE_putLE_of_lt (by omega)
  have hbody : slice val (2 + ev.entityID.length + 52) ev.payload.length = ev.payload := by
    rw [hrest]
    simp [slice_skip, slice_all]
  have hentity : slice val 2 ev.entityID.length = ev.entityID := by
    rw [hval, packValue, slice_skip (by simp), putLE_length, Nat.sub_self]
    exact slice_head rfl _
  have hhash : FixedBytes.copyFrom 16 (slice (packKey hash ev) 0 16) = hash := by
    rw [packKey, slice_head hash.length_bytes, FixedBytes.copyFrom_self]
  have hsys : getTime (slice (packKey hash ev) 16 8) = ev.systemTime := by
    simp [packKey, slice_skip, slice_head]
  have hstart : getTime (slice (packKey hash ev) 24 8) = ev.validTimeStart := by
    simp [packKey, slice_skip, slice_head]
  have hassert : getTime (slice (packKey hash ev) 32 8) = ev.assertionTime := by
    simp [packKey, slice_skip, slice_all]
  simp only [unpackRow, hlen, hh3, hend, hdigest, hplen, hbody, hentity, hhash, hsys, hstart, hassert]
  rfl

/-- The 40 bytes a row is sorted by. -/
def Row.frag (r : Row) : Bytes := packKey r.entityIDHash r.toTriTemporalEvent

theorem length_frag (r : Row) : r.frag.length = 40 := length_packKey _ _

theorem putTime_getTime {bs : Bytes} (h : bs.length = 8) : putTime (getTime bs) = bs := by
  rw [putTime, getTime, UInt64.toUInt64_toInt64, putU64_getU64 h]

theorem slice_append_slice (bs : Bytes) (off m n : ℕ) :
    slice bs off m ++ slice bs (off + m) n = slice bs off (m + n) := by
  rw [slice, slice, slice, List.take_add, List.drop_drop]

/-- A key of 40 bytes is the sort key of the row that is read from its node. -/
theorem frag_unpackRow {key : Bytes} (h : key.length = 40) (val : Bytes) : (unpackRow key val).frag = key := by
  have hword : ∀ off, off + 8 ≤ 40 → (slice key off 8).length = 8 := fun off hoff =>
    slice_length (by omega)
  calc (unpackRow key val).frag
      = slice key 0 16 ++ (slice key 16 8 ++ (slice key 24 8 ++ slice key 32 8)) := by
        simp only [Row.frag, packKey, unpackRow]
        rw [putTime_getTime (hword 16 (by omega)), putTime_getTime (hword 24 (by omega)),
          putTime_getTime (hword 32 (by omega)), FixedBytes.copyFrom_bytes (slice_length (by omega))]
    _ = slice key 0 40 := by
        rw [slice_append_slice key 24 8 8, slice_append_slice key 16 8 16, slice_append_slice key 0 16 24]
    _ = key := slice_all h

/-- Rows are ordered by hash first, and within a hash by system time, read without its sign. -/
theorem frag_le {r r' : Row} (h : compare r.frag r'.frag ≠ .gt) :
    compare r.entityIDHash.bytes r'.entityIDHash.bytes ≠ .gt ∧
      (r.entityIDHash = r'.entityIDHash → r.systemTime.toUInt64 ≤ r'.systemTime.toUInt64) := by
  rw [Row.frag, Row.frag, packKey, packKey, compare_append (by simp), compare_append (by simp), putTime, putTime,
    compare_putU64] at h
  constructor
  · intro hgt
    rw [hgt] at h
    exact h rfl
  · intro heq
    rw [heq, Std.ReflOrd.compare_self, Ordering.eq_then, compare_uint64] at h
    by_contra hle
    rw [UInt64.not_le, UInt64.lt_iff_toNat_lt] at hle
    rw [Nat.compare_eq_gt.mpr hle] at h
    exact h rfl

/-! ### The skip list -/

def nodeSize : ℕ := 64

def keySize : ℕ := 40

structure Node where
  key : FixedBytes keySize
  val : Bytes
deriving DecidableEq

def Node.row (n : Node) : Row := unpackRow n.key.bytes n.val

/-- Nodes by their keys; a new node goes before those of the same key. -/
abbrev Node.Before (n n' : Node) : Prop := compare n.key.bytes n'.key.bytes ≠ .gt

structure Arena where
  arenaSize : ℕ
  nodeTop : ℕ
  dataBottom : ℕ
  nodes : List Node
  sorted : WeaklyAscending compare (fun n : Node => n.key.bytes) nodes

namespace Arena

/-- `NewSkipListArena`: the head takes the first node. -/
def new (arenaSize : ℕ) : Arena := ⟨arenaSize, nodeSize, arenaSize, [], List.Pairwise.nil⟩

def count (a : Arena) : ℕ := a.nodes.length

def rows (a : Arena) : List Row := a.nodes.map Node.row

/-- `Put`, and whether there was room.  The node is taken before its data. -/
def put (a : Arena) (n : Node) : Arena × Bool :=
  let dataLen := keySize + n.val.length
  if a.nodeTop + nodeSize > a.arenaSize then (a, false)
  else if a.dataBottom < dataLen ∨ a.nodeTop + nodeSize > a.dataBottom - dataLen then
    ({ a with nodeTop := a.nodeTop + nodeSize }, false)
  else
    ({ a with
        nodeTop := a.nodeTop + nodeSize
        dataBottom := a.dataBottom - dataLen
        nodes := a.nodes.orderedInsert Node.Before n
        sorted := weaklyAscending_orderedInsert a.sorted n }, true)

theorem put_cases (a : Arena) (n : Node) :
    (a.put n).2 = true ∧ (a.put n).1.nodes = a.nodes.orderedInsert Node.Before n ∨
      (a.put n).2 = false ∧ (a.put n).1.nodes = a.nodes := by
  unfold put
  dsimp only
  split
  · exact .inr ⟨rfl, rfl⟩
  · split
    · exact .inr ⟨rfl, rfl⟩
    · exact .inl ⟨rfl, rfl⟩

theorem rows_put (a : Arena) (n : Node) :
    (a.put n).1.rows.Perm (if (a.put n).2 then n.row :: a.rows else a.rows) := by
  rcases a.put_cases n with ⟨hok, hnodes⟩ | ⟨hfull, hnodes⟩
  · rw [rows, hok, hnodes, if_pos rfl]
    exact (List.perm_orderedInsert Node.Before n a.nodes).map Node.row
  · rw [rows, hfull, hnodes]
    exact List.Perm.refl _

theorem count_put_pos {a : Arena} {n : Node} (h : (a.put n).2 = true) : (a.put n).1.count ≠ 0 := by
  have hlen := (a.rows_put n).length_eq
  rw [h, if_pos rfl, rows, List.length_map] at hlen
  rw [count, hlen]
  exact Nat.succ_ne_zero _

theorem put_new {size : ℕ} {n : Node} (h : keySize + n.val.length + nodeSize ≤ size - nodeSize) :
    ((new size).put n).2 = true := by
  have hnode : nodeSize = 64 := rfl
  have htop : ¬ (new size).nodeTop + nodeSize > (new size).arenaSize := by
    show ¬ nodeSize + nodeSize > size
    omega
  have hdata : ¬ ((new size).dataBottom < keySize + n.val.length ∨
      (new size).nodeTop + nodeSize > (new size).dataBottom - (keySize + n.val.length)) := by
    show ¬ (size < keySize + n.val.length ∨ nodeSize + nodeSize > size - (keySize + n.val.length))
    omega
  unfold put
  dsimp only
  rw [if_neg htop, if_neg hdata]

theorem weaklyAscending_rows (a : Arena) : WeaklyAscending compare Row.frag a.rows := by
  refine List.pairwise_map.mpr (a.sorted.imp fun {n n'} h => ?_)
  rw [Node.row, Node.row, frag_unpackRow n.key.length_bytes, frag_unpackRow n'.key.length_bytes]
  exact h

theorem rows_eq_nil_iff {a : Arena} : a.rows = [] ↔ a.count = 0 := by
  rw [rows, count, List.map_eq_nil_iff, List.length_eq_zero_iff]

end Arena

/-! ### Partitions -/

/-- `L0Partition`, with the rows of its buffer. -/
structure L0Partition where
  entityHash : FixedBytes 16
  firstSysTimeNs : Int64
  rows : List Row
deriving DecidableEq

def L0Partition.key (p : L0Partition) : ObjectKey := l0KeyFor (keyHash p.entityHash) p.firstSysTimeNs

def firstSysTime : List Row → Int64
  | [] => 0
  | r :: _ => r.systemTime

/-- `FlushArenaToIPC`: one partition for each run of rows with the same hash. -/
def partitions (a : Arena) : List L0Partition :=
  (groupRuns Row.entityIDHash a.rows).map fun run => ⟨run.1, firstSysTime run.2, run.2⟩

/-- What a flush uploads: rows of one hash, the first of them with the smallest system time. -/
structure L0Partition.Sound (p : L0Partition) : Prop where
  ne_nil : p.rows ≠ []
  first : p.firstSysTimeNs = firstSysTime p.rows
  hash : ∀ r ∈ p.rows, r.entityIDHash = p.entityHash
  sorted : WeaklyAscending compare Row.frag p.rows

/-- No row of a sorted file with one hash is before its first row, in the order of the keys. -/
theorem firstSysTime_le {rows : List Row} (hsorted : WeaklyAscending compare Row.frag rows)
    {hash : FixedBytes 16} (hhash : ∀ r ∈ rows, r.entityIDHash = hash) {r : Row} (hr : r ∈ rows) :
    (firstSysTime rows).toUInt64 ≤ r.systemTime.toUInt64 := by
  cases rows with
  | nil => cases hr
  | cons r₀ rows =>
    show r₀.systemTime.toUInt64 ≤ _
    rcases List.mem_cons.mp hr with rfl | hr'
    · exact UInt64.le_refl _
    · refine (frag_le ((List.pairwise_cons.mp hsorted).1 r hr')).2 ?_
      rw [hhash r₀ List.mem_cons_self, hhash r hr]

/-- No row of a partition is earlier than the time in its key. -/
theorem L0Partition.Sound.first_le {p : L0Partition} (h : p.Sound) {r : Row} (hr : r ∈ p.rows) :
    p.firstSysTimeNs.toUInt64 ≤ r.systemTime.toUInt64 := by
  rw [h.first]
  exact firstSysTime_le h.sorted h.hash hr

theorem rows_partitions (a : Arena) : (partitions a).flatMap L0Partition.rows = a.rows := by
  rw [partitions, List.flatMap_map]
  exact flatMap_groupRuns _ _

def compareHashes (h h' : FixedBytes 16) : Ordering := compare h.bytes h'.bytes

instance : Std.TransCmp compareHashes :=
  inferInstanceAs (Std.TransCmp (compareOn fun h : FixedBytes 16 => h.bytes))

instance : Std.LawfulEqCmp compareHashes where
  eq_of_compare h := FixedBytes.ext (Std.LawfulEqCmp.eq_of_compare h)

theorem isFibres_partitions (a : Arena) :
    IsFibres Row.entityIDHash a.rows (groupRuns Row.entityIDHash a.rows) :=
  isFibres_groupRuns (show WeaklyAscending compareHashes Row.entityIDHash a.rows from
    a.weaklyAscending_rows.imp fun h => (frag_le h).1)

theorem sound_partitions (a : Arena) : ∀ p ∈ partitions a, p.Sound := by
  intro p hp
  obtain ⟨⟨hash, rows⟩, hrun, rfl⟩ := List.mem_map.mp hp
  obtain ⟨hrows, hne⟩ := ((isFibres_partitions a).mem_iff hash rows).mp hrun
  refine ⟨hne, rfl, fun r hr => ?_, ?_⟩
  · have hr' : r ∈ rows := hr
    rw [hrows, List.mem_filter] at hr'
    exact of_decide_eq_true hr'.2
  · show WeaklyAscending compare Row.frag rows
    rw [hrows]
    exact a.weaklyAscending_rows.filter _

/-! ### Texts -/

/-- The ranges of the bytes that must follow a first byte; `none` where no character starts. -/
def utf8Ranges (b : UInt8) : Option (List (UInt8 × UInt8)) :=
  if b < 0x80 then some []
  else if b < 0xc2 then none
  else if b < 0xe0 then some [(0x80, 0xbf)]
  else if b = 0xe0 then some [(0xa0, 0xbf), (0x80, 0xbf)]
  else if b = 0xed then some [(0x80, 0x9f), (0x80, 0xbf)]
  else if b < 0xf0 then some [(0x80, 0xbf), (0x80, 0xbf)]
  else if b = 0xf0 then some [(0x90, 0xbf), (0x80, 0xbf), (0x80, 0xbf)]
  else if b < 0xf4 then some [(0x80, 0xbf), (0x80, 0xbf), (0x80, 0xbf)]
  else if b = 0xf4 then some [(0x80, 0x8f), (0x80, 0xbf), (0x80, 0xbf)]
  else none

/-- The scan of `utf8.ValidString`, with the ranges of the bytes that the last character still needs. -/
def validAfter : List (UInt8 × UInt8) → Bytes → Bool
  | [], [] => true
  | _ :: _, [] => false
  | [], b :: bs =>
    match utf8Ranges b with
    | none => false
    | some ranges => validAfter ranges bs
  | range :: ranges, b :: bs => range.1 ≤ b && b ≤ range.2 && validAfter ranges bs

def validString (bs : Bytes) : Bool := validAfter [] bs

def piiLen : ℕ := 12

/-- `isDigitRun12` at the front of a string. -/
def isDigitRun12 (bs : Bytes) : Bool := piiLen ≤ bs.length && (bs.take piiLen).all fun b => 48 ≤ b && b ≤ 57

/-- The bytes of `PII_REDACTED_`. -/
def redactionMarker : Bytes := [0x50, 0x49, 0x49, 0x5f, 0x52, 0x45, 0x44, 0x41, 0x43, 0x54, 0x45, 0x44, 0x5f]

/-- `maskAssemble`, with the number of bytes of the last run that are still to be passed over. -/
def maskAfter (xxhash : Bytes → UInt64) : ℕ → Bytes → Bytes
  | _, [] => []
  | n + 1, _ :: bs => maskAfter xxhash n bs
  | 0, b :: bs =>
    if isDigitRun12 (b :: bs) then
      redactionMarker ++ ((putU64 (xxhash ((b :: bs).take piiLen))).flatMap hexByte ++
        maskAfter xxhash (piiLen - 1) bs)
    else b :: maskAfter xxhash 0 bs

/-- `MaskPII`: every run of twelve digits is replaced by a marker and its digest. -/
def maskPII (xxhash : Bytes → UInt64) (payload : Bytes) : Bytes := maskAfter xxhash 0 payload

/-! ### The table -/

structure MemTable where
  arenaSize : UInt32
  maxEntries : UInt32
  /-- A fallback directory is configured. -/
  fallbackDir : Bool
  skipList : Arena
  /-- The background flushes, each with the partitions it has still to upload. -/
  frozen : List (List L0Partition)
  closed : Bool

/-- The errors of `Write`. -/
inductive WriteError where
  | idTooLong
  | invalidUTF8
  | eventTooLarge
  | closed
  | insertionFailed
deriving DecidableEq

inductive FlushError where
  | fallbackWriteFailed
  | noFallbackDir
deriving DecidableEq

namespace MemTable

def new (arenaSize maxEntries : UInt32) (fallbackDir : Bool) : MemTable :=
  ⟨arenaSize, maxEntries, fallbackDir, .new arenaSize.toNat, [], false⟩

/-- `swapAndFlushAsync`: the goroutine has all partitions of the frozen arena before it. -/
def swapAndFlushAsync (m : MemTable) : MemTable :=
  if m.skipList.count = 0 then m
  else { m with skipList := .new m.arenaSize.toNat, frozen := m.frozen ++ [partitions m.skipList] }

/-- `Put` with its retries; each of them swaps the arena first. -/
def putRetry (n : Node) : ℕ → MemTable → MemTable × Bool
  | retries, m =>
    let m' := { m with skipList := (m.skipList.put n).1 }
    if (m.skipList.put n).2 then (m', true)
    else
      match retries with
      | 0 => (m', false)
      | retries + 1 => putRetry n retries m'.swapAndFlushAsync

section
variable (R : Runtime) (xxhash : Bytes → UInt64)

def eventRow (ev : TriTemporalEvent) : Row :=
  { ev with payload := maskPII xxhash ev.payload, entityIDHash := entityHash16 R ev.entityID }

def nodeOf (r : Row) : Node := ⟨⟨r.frag, length_frag r⟩, packValue r.toTriTemporalEvent⟩

def write (m : MemTable) (ev : TriTemporalEvent) : MemTable × Option WriteError :=
  let r := eventRow R xxhash ev
  if ev.entityID.length > 65535 then (m, some .idTooLong)
  else if !validString ev.entityID then (m, some .invalidUTF8)
  else if keySize + (54 + ev.entityID.length + r.payload.length) + nodeSize > m.arenaSize.toNat - nodeSize then
    (m, some .eventTooLarge)
  else if m.closed then (m, some .closed)
  else
    let m := if m.skipList.count ≥ m.maxEntries.toNat then m.swapAndFlushAsync else m
    let result := m.putRetry (nodeOf r) 3
    (result.1, if result.2 then none else some .insertionFailed)

end

/-- The loop of `Flush` over the partitions: an upload that fails is answered by a fallback file, and the
loop goes on. -/
def flushPartitions (fallbackDir : Bool) (upload : L0Partition → UploadOutcome) (fallback : L0Partition → Bool)
    (s : ObjectStore) : List L0Partition → ObjectStore × Option FlushError
  | [] => (s, none)
  | p :: ps =>
    let s' := (s.upload p.key (.arrow p.rows) (upload p)).1
    if (s.upload p.key (.arrow p.rows) (upload p)).2 then flushPartitions fallbackDir upload fallback s' ps
    else if !fallbackDir then (s', some .noFallbackDir)
    else if fallback p then flushPartitions fallbackDir upload fallback s' ps
    else (s', some .fallbackWriteFailed)

/-- `Flush`.  The first upload error is remembered and never returned. -/
def flush (m : MemTable) (s : ObjectStore) (upload : L0Partition → UploadOutcome) (fallback : L0Partition → Bool) :
    MemTable × ObjectStore × Option FlushError :=
  if m.skipList.count = 0 then (m, s, none)
  else
    ({ m with skipList := .new m.arenaSize.toNat },
      flushPartitions m.fallbackDir upload fallback s (partitions m.skipList))

/-- The upload loop of a background flush for one partition. -/
def uploadRetry (p : L0Partition) (s : ObjectStore) : List UploadOutcome → ObjectStore
  | [] => s
  | outcome :: outcomes =>
    let s' := (s.upload p.key (.arrow p.rows) outcome).1
    if (s.upload p.key (.arrow p.rows) outcome).2 then s' else uploadRetry p s' outcomes

/-- A background flush uploads its next partition.  There are ten attempts, fewer at a shutdown; whether
they fail is not told to anyone. -/
def background (m : MemTable) (s : ObjectStore) (i : ℕ) (attempts : List UploadOutcome) :
    MemTable × ObjectStore :=
  match m.frozen[i]? with
  | some (p :: ps) => ({ m with frozen := m.frozen.set i ps }, uploadRetry p s (attempts.take 10))
  | _ => (m, s)

/-! ### What the table holds -/

/-- The rows that are not yet uploaded or given up. -/
def buffered (m : MemTable) : List Row := m.frozen.flatten.flatMap L0Partition.rows ++ m.skipList.rows

/-- An arena without nodes is fresh, and the partitions in flight are sound. -/
structure WF (m : MemTable) : Prop where
  fresh : m.skipList.count = 0 → m.skipList = .new m.arenaSize.toNat
  sound : ∀ ps ∈ m.frozen, ∀ p ∈ ps, p.Sound

theorem wf_new (arenaSize maxEntries : UInt32) (fallbackDir : Bool) : (new arenaSize maxEntries fallbackDir).WF :=
  ⟨fun _ => rfl, by simp [new]⟩

theorem buffered_swap (m : MemTable) : m.swapAndFlushAsync.buffered = m.buffered := by
  unfold swapAndFlushAsync
  split
  · rfl
  · simp [buffered, rows_partitions, Arena.new, Arena.rows]

variable {m : MemTable} {n : Node}

theorem WF.swap (h : m.WF) : m.swapAndFlushAsync.WF := by
  unfold swapAndFlushAsync
  split
  · exact h
  · refine ⟨fun _ => rfl, fun ps hps => ?_⟩
    rcases List.mem_append.mp hps with hps | hps
    · exact h.sound ps hps
    · rw [List.mem_singleton.mp hps]
      exact sound_partitions _

theorem WF.skipList_swap (h : m.WF) : m.swapAndFlushAsync.skipList = .new m.arenaSize.toNat := by
  unfold swapAndFlushAsync
  split
  · next hempty => exact h.fresh hempty
  · rfl

@[simp] theorem arenaSize_swap (m : MemTable) : m.swapAndFlushAsync.arenaSize = m.arenaSize := by
  unfold swapAndFlushAsync
  split <;> rfl

theorem putRetry_ok (h : (m.skipList.put n).2 = true) (retries : ℕ) :
    putRetry n retries m = ({ m with skipList := (m.skipList.put n).1 }, true) := by
  rw [putRetry.eq_def]
  simp only [h, if_true]

theorem putRetry_full (h : (m.skipList.put n).2 = false) (retries : ℕ) :
    putRetry n (retries + 1) m =
      putRetry n retries { m with skipList := (m.skipList.put n).1 }.swapAndFlushAsync := by
  rw [putRetry]
  simp only [h, Bool.false_eq_true, if_false]

theorem WF.put (h : m.WF) (hok : (m.skipList.put n).2 = true) : { m with skipList := (m.skipList.put n).1 }.WF ∧
      { m with skipList := (m.skipList.put n).1 }.buffered.Perm (n.row :: m.buffered) := by
  refine ⟨⟨fun hempty => absurd hempty (Arena.count_put_pos hok), h.sound⟩, ?_⟩
  have hrows := m.skipList.rows_put n
  rw [hok, if_pos rfl] at hrows
  exact (hrows.append_left _).trans List.perm_middle

/-- A node that fits a fresh arena is put, at the latest behind a swap. -/
theorem WF.putRetry (h : m.WF) (retries : ℕ)
    (hfits : keySize + n.val.length + nodeSize ≤ m.arenaSize.toNat - nodeSize) :
    (putRetry n (retries + 1) m).2 = true ∧ (MemTable.putRetry n (retries + 1) m).1.WF ∧
      (MemTable.putRetry n (retries + 1) m).1.buffered.Perm (n.row :: m.buffered) := by
  rcases m.skipList.put_cases n with ⟨hok, -⟩ | ⟨hfull, hnodes⟩
  · rw [putRetry_ok hok]
    exact ⟨rfl, h.put hok⟩
  · -- the arena is not empty, so it is swapped and the node goes into a fresh one
    set m' := { m with skipList := (m.skipList.put n).1 } with hm'
    have hcount : m'.skipList.count = m.skipList.count := congrArg List.length hnodes
    have hwf : m'.WF := by
      refine ⟨fun hempty => ?_, h.sound⟩
      have hnew := Arena.put_new hfits
      rw [← h.fresh (hcount ▸ hempty), hfull] at hnew
      cases hnew
    have hbuf : m'.buffered = m.buffered := by
      rw [buffered, buffered, Arena.rows, Arena.rows, hnodes]
    have hok : (m'.swapAndFlushAsync.skipList.put n).2 = true := by
      rw [hwf.skipList_swap]
      exact Arena.put_new hfits
    obtain ⟨hput, hperm⟩ := hwf.swap.put hok
    rw [buffered_swap, hbuf] at hperm
    rw [putRetry_full hfull, putRetry_ok hok]
    exact ⟨rfl, hput, hperm⟩

section
variable {R : Runtime} {xxhash : Bytes → UInt64}

/-- The checks of `Write`. -/
structure Accepts (R : Runtime) (xxhash : Bytes → UInt64) (m : MemTable) (ev : TriTemporalEvent) : Prop where
  length : ev.entityID.length ≤ 65535
  text : validString ev.entityID = true
  fits : keySize + (54 + ev.entityID.length + (eventRow R xxhash ev).payload.length) + nodeSize ≤
    m.arenaSize.toNat - nodeSize
  isOpen : m.closed = false

variable {m : MemTable} {ev : TriTemporalEvent}

/-- The node of an event that passes the checks is read back. -/
theorem Accepts.row_nodeOf (h : m.Accepts R xxhash ev) :
    (nodeOf (eventRow R xxhash ev)).row = eventRow R xxhash ev := by
  have hsize := m.arenaSize.toNat_lt
  have hfits := h.fits
  exact unpackRow_pack _ (show ev.entityID.length < 2 ^ 16 from Nat.lt_succ_of_le h.length) (by omega)

theorem write_of_accepts (h : m.Accepts R xxhash ev) :
    m.write R xxhash ev =
      (((if m.skipList.count ≥ m.maxEntries.toNat then m.swapAndFlushAsync else m).putRetry
        (nodeOf (eventRow R xxhash ev)) 3).1,
        if ((if m.skipList.count ≥ m.maxEntries.toNat then m.swapAndFlushAsync else m).putRetry
          (nodeOf (eventRow R xxhash ev)) 3).2 then none else some .insertionFailed) := by
  rw [write]
  rw [if_neg (Nat.not_lt.mpr h.length), if_neg (by simp [h.text]), if_neg (Nat.not_lt.mpr h.fits),
    if_neg (by simp [h.isOpen])]

/-- **An event that passes the checks is written**, and its row is held. -/
theorem Accepts.write (hwf : m.WF) (h : m.Accepts R xxhash ev) :
    (m.write R xxhash ev).2 = none ∧ (m.write R xxhash ev).1.WF ∧
      (m.write R xxhash ev).1.buffered.Perm (eventRow R xxhash ev :: m.buffered) := by
  set m' := if m.skipList.count ≥ m.maxEntries.toNat then m.swapAndFlushAsync else m with hm'
  have hwf' : m'.WF := by
    rw [hm']
    split
    · exact hwf.swap
    · exact hwf
  have hbuf : m'.buffered = m.buffered := by
    rw [hm']
    split
    · exact buffered_swap m
    · rfl
  have hsize : m'.arenaSize = m.arenaSize := by
    rw [hm']
    split
    · exact arenaSize_swap m
    · rfl
  have hfits : keySize + (nodeOf (eventRow R xxhash ev)).val.length + nodeSize ≤ m'.arenaSize.toNat - nodeSize := by
    rw [hsize, nodeOf, length_packValue]
    exact h.fits
  obtain ⟨hok, hwf'', hperm⟩ := hwf'.putRetry 2 hfits
  rw [h.row_nodeOf, hbuf] at hperm
  rw [write_of_accepts h, ← hm']
  exact ⟨by rw [hok]; rfl, hwf'', hperm⟩

theorem write_of_not_accepts (h : ¬ m.Accepts R xxhash ev) :
    (m.write R xxhash ev).1 = m ∧ (m.write R xxhash ev).2 ≠ none := by
  rw [write]
  by_cases h1 : ev.entityID.length > 65535
  · rw [if_pos h1]
    exact ⟨rfl, by simp⟩
  rw [if_neg h1]
  by_cases h2 : (!validString ev.entityID) = true
  · rw [if_pos h2]
    exact ⟨rfl, by simp⟩
  rw [if_neg h2]
  by_cases h3 : keySize + (54 + ev.entityID.length + (eventRow R xxhash ev).payload.length) + nodeSize >
      m.arenaSize.toNat - nodeSize
  · rw [if_pos h3]
    exact ⟨rfl, by simp⟩
  rw [if_neg h3]
  by_cases h4 : m.closed = true
  · rw [if_pos h4]
    exact ⟨rfl, by simp⟩
  exact absurd ⟨by omega, by simpa using h2, by omega, by simpa using h4⟩ h

end

end MemTable

end Sovereign.Database
