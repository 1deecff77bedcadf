import Sovereign.Sync.Entry

/-!
# Keys and signatures

`pkg/identity`: the directory of registered keys, and the checks of a signature.  Curve and lattice
arithmetic is outside: `Crypto` holds what the two signature libraries and SHAKE-256 answer.

A classical frame carries one Ed25519 signature over its bytes; a hybrid batch carries an Ed25519 and
an ML-DSA-65 signature, both over the same 120 bytes derived from it.
-/

namespace Sovereign.Identity

open Lib Sync

/-- `ed25519.PublicKey`; the directory admits only keys of 32 bytes. -/
abbrev PublicKey := FixedBytes 32

/-- `mldsa.PublicKey`, in its encoding. -/
abbrev PQPublicKey := Bytes

def hybridFrameSize : ℕ := 120

/-- The answers of the cryptographic libraries. -/
structure Crypto where
  /-- `RejectSmallOrderKey`: the key is a curve point of large order. -/
  rejectSmallOrderKey : PublicKey → Bool
  /-- `ed25519.Verify`. -/
  ed25519Verify : PublicKey → Bytes → Bytes → Bool
  /-- `VerifyCRDTFrame_PostQuantum` on a 120-byte frame. -/
  mldsaVerify : PQPublicKey → FixedBytes hybridFrameSize → Bytes → Bool
  /-- The first 120 bytes of SHAKE-256. -/
  shake256 : Bytes → FixedBytes hybridFrameSize

namespace Crypto

variable (K : Crypto)

def verifyCRDTFrame (pub : PublicKey) (msg sig : Bytes) : Bool :=
  if !K.rejectSmallOrderKey pub then false else K.ed25519Verify pub msg sig

def verifyCRDTFrameHybrid (edPub : PublicKey) (pqPub : Option PQPublicKey) (msg edSig pqSig : Bytes) :
    Bool :=
  if !K.verifyCRDTFrame edPub msg edSig then false
  else
    match pqPub with
    | none => false
    | some pqPub =>
      if h : msg.length = hybridFrameSize then K.mldsaVerify pqPub ⟨msg, h⟩ pqSig else false

def hashBatchWireToFrame120 (batchWire : Bytes) : FixedBytes hybridFrameSize := K.shake256 batchWire

def verifyBatchHybrid (edPub : PublicKey) (pqPub : Option PQPublicKey)
    (batchWire edSig pqSig : Bytes) : Bool :=
  if batchWire.isEmpty then false
  else K.verifyCRDTFrameHybrid edPub pqPub (K.hashBatchWireToFrame120 batchWire).bytes edSig pqSig

/-- Without an ML-DSA key nothing passes the hybrid check. -/
@[simp] theorem verifyCRDTFrameHybrid_none (edPub : PublicKey) (msg edSig pqSig : Bytes) :
    K.verifyCRDTFrameHybrid edPub none msg edSig pqSig = false := by
  simp [verifyCRDTFrameHybrid]

/-- The hybrid check includes the classical one, over the derived frame. -/
theorem verifyBatchHybrid_classical {edPub : PublicKey} {pqPub : Option PQPublicKey}
    {batchWire edSig pqSig : Bytes} (h : K.verifyBatchHybrid edPub pqPub batchWire edSig pqSig = true) :
    K.verifyCRDTFrame edPub (K.hashBatchWireToFrame120 batchWire).bytes edSig = true := by
  by_contra hbad
  rw [verifyBatchHybrid] at h
  split at h
  · cases h
  · simp [verifyCRDTFrameHybrid, hbad] at h

end Crypto

/-! ### The directory -/

structure Directory where
  m : NodeID → Option PublicKey
  mPQ : NodeID → Option PQPublicKey

namespace Directory

def new : Directory := ⟨fun _ => none, fun _ => none⟩

/-- `Register`; `none` is `ErrDirectoryBadPubKey`. -/
def register (d : Directory) (nodeID : NodeID) (pub : Bytes) : Option Directory :=
  if h : pub.length = 32 then some { d with m := Function.update d.m nodeID (some ⟨pub, h⟩) } else none

/-- `RegisterPQ`; `none` is `ErrDirectoryBadPQPubKey`. -/
def registerPQ (d : Directory) (nodeID : NodeID) (pqPub : Option PQPublicKey) : Option Directory :=
  match pqPub with
  | none => none
  | some pqPub => some { d with mPQ := Function.update d.mPQ nodeID (some pqPub) }

def lookup (d : Directory) (nodeID : NodeID) : Option PublicKey := d.m nodeID

/-- `LookupBoth`: both keys, if the classical one is registered. -/
def lookupBoth (d : Directory) (nodeID : NodeID) : Option (PublicKey × Option PQPublicKey) :=
  (d.m nodeID).map fun edPub => (edPub, d.mPQ nodeID)

end Directory

end Sovereign.Identity
