import Sovereign.Receive.Outcome

/-!
# Frames on a connection

A connection carries frames one behind the other, each with its length in front
(`lengthPrefixFrame`, from `pkg/receive/forward.go`).  `readFrame` is `FrameReader.ReadFrame` on the
bytes still to come; a length of zero or above `maxFrameSize` ends the connection, and with it
everything behind that frame.  The read loop gives each frame to a handler by its first four bytes
(`dispatchFrame`), as the loop of the accept side and `DispatchFrame` of the dial side do.

* `frames_flatten` — a stream of frames within the limits is read back frame by frame;
* `frames_of_oversized` — behind a frame above the limit nothing is read.

The reader's buffer is left out: a stream is a list of bytes, and how the connection cuts it into
reads does not show.
-/

namespace Sovereign.Receive

open Lib Sync Attribution

/-! ### The frame reader -/

/-- `LengthPrefixFrame`: the length is cut off at 32 bits. -/
def lengthPrefixFrame (envelopeBytes : Bytes) : Bytes :=
  putBE 4 (envelopeBytes.length % 2 ^ 32) ++ envelopeBytes

def frameLenPrefixSize : ℕ := 4

def maxFrameSize : ℕ := 16777216

/-- The ends of a connection: no whole frame is left, or a length that is not taken. -/
inductive ReadError where
  | eof
  | frameTooLarge
deriving DecidableEq

def readFrame (stream : Bytes) : Except ReadError (Bytes × Bytes) :=
  if stream.length < frameLenPrefixSize then .error .eof
  else
    let frameLen := getBE (stream.take frameLenPrefixSize)
    if frameLen = 0 ∨ maxFrameSize < frameLen then .error .frameTooLarge
    else if stream.length < frameLenPrefixSize + frameLen then .error .eof
    else .ok (slice stream frameLenPrefixSize frameLen, stream.drop (frameLenPrefixSize + frameLen))

/-- The frames a read loop gets until the connection ends; each takes bytes of the stream. -/
def readFrames : ℕ → Bytes → List Bytes
  | 0, _ => []
  | fuel + 1, stream =>
    match readFrame stream with
    | .error _ => []
    | .ok (frame, rest) => frame :: readFrames fuel rest

def frames (stream : Bytes) : List Bytes := readFrames stream.length stream

/-- The length of a frame is one that `ReadFrame` takes. -/
def FrameFits (frame : Bytes) : Prop := 0 < frame.length ∧ frame.length ≤ maxFrameSize

theorem take_lengthPrefixFrame (frame rest : Bytes) :
    getBE ((lengthPrefixFrame frame ++ rest).take frameLenPrefixSize) = frame.length % 2 ^ 32 := by
  have hhead : (putBE 4 (frame.length % 2 ^ 32)).length = frameLenPrefixSize := putBE_length _ _
  rw [lengthPrefixFrame, List.append_assoc, take_append_len hhead]
  exact getBE_putBE_of_lt (Nat.mod_lt _ (by decide))

variable {frame : Bytes} {fs : List Bytes}

theorem readFrame_lengthPrefixFrame (h : FrameFits frame) (rest : Bytes) :
    readFrame (lengthPrefixFrame frame ++ rest) = .ok (frame, rest) := by
  obtain ⟨hpos, hmax⟩ := h
  have hmod : frame.length % 2 ^ 32 = frame.length :=
    Nat.mod_eq_of_lt (hmax.trans_lt (by decide))
  have hlen : (lengthPrefixFrame frame ++ rest).length = 4 + frame.length + rest.length := by
    simp [lengthPrefixFrame, Nat.add_assoc]
  have hhead : (putBE 4 (frame.length % 2 ^ 32)).length = frameLenPrefixSize := putBE_length _ _
  rw [readFrame, if_neg (by rw [hlen, frameLenPrefixSize]; omega)]
  simp only [take_lengthPrefixFrame, hmod]
  rw [if_neg (by omega), if_neg (by rw [hlen, frameLenPrefixSize]; omega)]
  have hslice : slice (lengthPrefixFrame frame ++ rest) frameLenPrefixSize frame.length = frame := by
    rw [lengthPrefixFrame, List.append_assoc, slice_skip hhead.le, hhead, Nat.sub_self]
    exact slice_head rfl rest
  have hdrop : (lengthPrefixFrame frame ++ rest).drop (frameLenPrefixSize + frame.length) = rest :=
    drop_append_len (by simp [lengthPrefixFrame, frameLenPrefixSize]) rest
  rw [hslice, hdrop]

theorem readFrame_oversized (hmax : maxFrameSize < frame.length)
    (hword : frame.length < 2 ^ 32) (rest : Bytes) :
    readFrame (lengthPrefixFrame frame ++ rest) = .error .frameTooLarge := by
  have hlen : (lengthPrefixFrame frame ++ rest).length = 4 + frame.length + rest.length := by
    simp [lengthPrefixFrame, Nat.add_assoc]
  rw [readFrame, if_neg (by rw [hlen, frameLenPrefixSize]; omega)]
  simp only [take_lengthPrefixFrame, Nat.mod_eq_of_lt hword]
  rw [if_pos (.inr hmax)]

theorem readFrames_flatten (hfit : ∀ f ∈ fs, FrameFits f) (rest : Bytes) {fuel : ℕ} (hfuel : fs.length ≤ fuel) :
    readFrames fuel ((fs.map lengthPrefixFrame).flatten ++ rest)
      = fs ++ readFrames (fuel - fs.length) rest := by
  induction fs generalizing fuel with
  | nil => rfl
  | cons f fs ih =>
    obtain ⟨fuel, rfl⟩ : ∃ n, fuel = n + 1 := ⟨fuel - 1, by simp at hfuel; omega⟩
    have hread := readFrame_lengthPrefixFrame (hfit f List.mem_cons_self)
      ((fs.map lengthPrefixFrame).flatten ++ rest)
    rw [List.map_cons, List.flatten_cons, List.append_assoc, readFrames, hread]
    simp only [List.length_cons, Nat.add_sub_add_right, List.cons_append]
    rw [ih (fun g hg => hfit g (List.mem_cons_of_mem f hg)) (by simpa using hfuel)]

theorem length_le_flatten (fs : List Bytes) : fs.length ≤ ((fs.map lengthPrefixFrame).flatten).length := by
  induction fs with
  | nil => simp
  | cons f fs ih =>
    simp only [List.map_cons, List.flatten_cons, List.length_append, List.length_cons]
    have hpos : 4 ≤ (lengthPrefixFrame f).length := by simp [lengthPrefixFrame]
    omega

/-- **The frames of a connection** whose frames are all within the limits. -/
theorem frames_flatten (hfit : ∀ f ∈ fs, FrameFits f) : frames (fs.map lengthPrefixFrame).flatten = fs := by
  have hread := readFrames_flatten hfit [] (length_le_flatten fs)
  rw [List.append_nil] at hread
  have hnil : ∀ n, readFrames n [] = [] := fun n => by cases n <;> rfl
  rw [frames, hread, hnil, List.append_nil]

/-- **An oversized frame cuts the stream**: what stands before it is read, nothing behind. -/
theorem frames_of_oversized (fs : List Bytes) (hfit : ∀ f ∈ fs, FrameFits f)
    (hmax : maxFrameSize < frame.length) (hword : frame.length < 2 ^ 32) (rest : Bytes) :
    frames ((fs.map lengthPrefixFrame).flatten ++ (lengthPrefixFrame frame ++ rest)) = fs := by
  have hfuel : fs.length
      ≤ ((fs.map lengthPrefixFrame).flatten ++ (lengthPrefixFrame frame ++ rest)).length := by
    rw [List.length_append]
    exact (length_le_flatten fs).trans (Nat.le_add_right _ _)
  have hcut : ∀ n, readFrames n (lengthPrefixFrame frame ++ rest) = [] := fun n => by
    cases n with
    | zero => rfl
    | succ n => rw [readFrames, readFrame_oversized hmax hword]
  rw [frames, readFrames_flatten hfit _ hfuel, hcut, List.append_nil]

/-! ### The read loop -/

/-- `DispatchFrame`: the handler by the first four bytes; a digest goes to the gossiper and does not
touch the receiver. -/
def dispatchFrame (now : Clocks) (frame : Bytes) : Option Inbound :=
  if isBatchFrame frame then some (.batch frame)
  else if isDigestFrame frame then none
  else if isHybridFrame frame then some (.hybrid frame)
  else some (.frame now frame)

/-- What a connection brings to the receiver; `clocks k` is the time at which frame `k` is handled. -/
def inbounds (clocks : ℕ → Clocks) (stream : Bytes) : List Inbound :=
  ((frames stream).mapIdx fun k frame => dispatchFrame (clocks k) frame).reduceOption

def Receiver.readLoop (P : Platform) (r : Receiver) (clocks : ℕ → Clocks) (stream : Bytes) : Receiver :=
  r.handleAll P (inbounds clocks stream)

theorem dispatchFrame_batch {env : BatchEnvelope} (h : unmarshalBatchEnvelope frame = .ok env) (now : Clocks) :
    dispatchFrame now frame = some (.batch frame) := by
  rw [unmarshalBatchEnvelope] at h
  split at h
  · cases h
  next hlen =>
  split at h
  · cases h
  next hmagic =>
  have hbatch : isBatchFrame frame = true := by
    rw [batchEnvelopeHeaderLen] at hlen
    simp only [isBatchFrame, hasMagic, Bool.and_eq_true, decide_eq_true_eq]
    exact ⟨by omega, not_not.mp hmagic⟩
  rw [dispatchFrame, if_pos hbatch]

theorem dispatchFrame_hybrid {env : HybridEnvelope} (h : unmarshalHybridFrame frame = .ok env) (now : Clocks) :
    dispatchFrame now frame = some (.hybrid frame) := by
  rw [unmarshalHybridFrame] at h
  split at h
  · cases h
  next hlen =>
  split at h
  · cases h
  next hmagic =>
  have hlen4 : 4 ≤ frame.length := by
    rw [hybridEnvelopeHeaderLen] at hlen
    omega
  -- the three magics differ
  have hfield := not_not.mp hmagic
  have hbatch : isBatchFrame frame = false := by
    simp [isBatchFrame, hasMagic, hfield, wireHybridPQMagic, wireV1Magic]
  have hdigest : isDigestFrame frame = false := by
    simp [isDigestFrame, hasMagic, hfield, wireHybridPQMagic, wireDigestMagic]
  have hhybrid : isHybridFrame frame = true := by simp [isHybridFrame, hasMagic, hfield, hlen4]
  simp [dispatchFrame, hbatch, hdigest, hhybrid]

/-- A frame that goes to a handler at every time is handled. -/
theorem mem_inbounds (clocks : ℕ → Clocks) {stream : Bytes} {i : Inbound}
    (hframe : frame ∈ frames stream) (hdispatch : ∀ now, dispatchFrame now frame = some i) :
    i ∈ inbounds clocks stream := by
  rw [inbounds, List.reduceOption_mem_iff]
  obtain ⟨k, hk, rfl⟩ := List.mem_iff_getElem.mp hframe
  exact List.mem_mapIdx.mpr ⟨k, hk, hdispatch (clocks k)⟩

end Sovereign.Receive
