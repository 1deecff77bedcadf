import Sovereign.Attribution.Envelope

/-!
# What a chain of relay hops certifies

`Open` of `pkg/attribution/envelope.go` verifies the signature of every hop over the inner wire, the signed material of
the hop before it, the index of the hop and its wall time.  The material of hop `i` is therefore

  `inner ‖ (inner ‖ ( … (inner ‖ 0 ‖ t₀) … ) ‖ i - 1 ‖ tᵢ₋₁) ‖ i ‖ tᵢ`

without a length anywhere.

* `chainMaterial_eq_iff` — nevertheless it determines the inner wire and the times of all hops up to its own, as long as
  the index does not wrap in its two bytes.  Every envelope read from a wire has fewer hops.
* It contains neither key nor signature of any hop.  Whoever holds a key can sign the material of an earlier hop and
  put the own name there: the later hops still verify (`made_replaceHop`).

Signatures are unforgeable: those of the envelopes considered are in a `Ledger` of signatures that were made.  So an
accepted envelope names the relays of an honest hop's prefix beyond doubt exactly when no other key has signed the
material of one of them.
-/

namespace Sovereign.Attribution

open Lib Identity

/-! ### The signed material -/

/-- The accumulator of `Open` after hops with the given times, from hop `i` on. -/
def materialFrom (innerWire : Bytes) : Bytes → ℕ → List Int64 → Bytes
  | preceding, _, [] => preceding
  | preceding, i, t :: ts => materialFrom innerWire (signedMaterial innerWire preceding i t) (i + 1) ts

/-- What the last of the hops with the given times signs. -/
def chainMaterial (innerWire : Bytes) (times : List Int64) : Bytes := materialFrom innerWire [] 0 times

def times (hops : List Hop) : List Int64 := hops.map Hop.wallUSec

@[simp] theorem putWall_length (t : Int64) : (putWall t).length = 8 := putLE_length _ _

theorem putWall_injective : Function.Injective putWall := by
  intro s t h
  have hnat := putLE_injective_of_lt (toNat_lt_256_pow_8 _) (toNat_lt_256_pow_8 _) h
  have hword := congrArg UInt64.toInt64 (UInt64.toNat_inj.mp hnat)
  rwa [Int64.toInt64_toUInt64, Int64.toInt64_toUInt64] at hword

theorem materialFrom_snoc (innerWire preceding : Bytes) (i : ℕ) (ts : List Int64) (t : Int64) :
    materialFrom innerWire preceding i (ts ++ [t])
      = signedMaterial innerWire (materialFrom innerWire preceding i ts) (i + ts.length) t := by
  induction ts generalizing preceding i with
  | nil => rfl
  | cons s ts ih =>
    rw [List.cons_append, materialFrom, ih, materialFrom, List.length_cons, Nat.add_right_comm, Nat.add_assoc i]

theorem chainMaterial_snoc (innerWire : Bytes) (ts : List Int64) (t : Int64) :
    chainMaterial innerWire (ts ++ [t]) = signedMaterial innerWire (chainMaterial innerWire ts) ts.length t := by
  rw [chainMaterial, materialFrom_snoc, Nat.zero_add]
  rfl

theorem chainMaterial_length (innerWire : Bytes) (ts : List Int64) :
    (chainMaterial innerWire ts).length = ts.length * (innerWire.length + 10) := by
  induction ts using List.reverseRecOn with
  | nil => simp [chainMaterial, materialFrom]
  | append_singleton ts t ih =>
    rw [chainMaterial_snoc, signedMaterial, List.length_append, List.length_append, List.length_append, ih,
      putLE_length, putWall_length, List.length_append, List.length_singleton, Nat.succ_mul]
    omega

/-- With the number of hops and the length of the inner wire known, the times can be read back. -/
theorem times_eq_of_chainMaterial {inner inner' : Bytes} {ts ts' : List Int64} (hinner : inner.length = inner'.length)
    (hcount : ts.length = ts'.length) (heq : chainMaterial inner ts = chainMaterial inner' ts') : ts = ts' := by
  induction ts using List.reverseRecOn generalizing ts' with
  | nil => exact (List.length_eq_zero_iff.mp hcount.symm).symm
  | append_singleton ts t ih =>
    obtain rfl | ⟨ts', t', rfl⟩ := List.eq_nil_or_concat' ts'
    · simp at hcount
    have hcount' : ts.length = ts'.length := by simpa using hcount
    rw [chainMaterial_snoc, chainMaterial_snoc, signedMaterial, signedMaterial] at heq
    obtain ⟨-, hrest⟩ := List.append_inj heq hinner
    obtain ⟨hpre, hlast⟩ := List.append_inj' hrest (by simp)
    obtain ⟨-, hwall⟩ := List.append_inj hlast (by simp)
    rw [ih hcount' hpre, putWall_injective hwall]

/-- **The material of a hop determines the inner wire and the times up to the hop**, as long as indices do not wrap. -/
theorem chainMaterial_eq_iff {inner inner' : Bytes} {ts ts' : List Int64} (hne : ts ≠ []) (hne' : ts' ≠ [])
    (hle : ts.length ≤ 65536) (hle' : ts'.length ≤ 65536) :
    chainMaterial inner ts = chainMaterial inner' ts' ↔ inner = inner' ∧ ts = ts' := by
  refine ⟨fun heq => ?_, fun h => by rw [h.1, h.2]⟩
  -- the index of the last hop gives the number of hops
  have hcount : ts.length = ts'.length := by
    obtain ⟨us, t, rfl⟩ := (List.eq_nil_or_concat' ts).resolve_left hne
    obtain ⟨us', t', rfl⟩ := (List.eq_nil_or_concat' ts').resolve_left hne'
    rw [List.length_append, List.length_singleton] at hle hle' ⊢
    rw [chainMaterial_snoc, chainMaterial_snoc, signedMaterial, signedMaterial, ← List.append_assoc inner,
      ← List.append_assoc inner'] at heq
    obtain ⟨-, hlast⟩ := List.append_inj' heq (by simp)
    obtain ⟨hindex, -⟩ := List.append_inj hlast (by simp)
    rw [List.length_append, List.length_singleton,
      putLE_injective_of_lt (by omega : us.length < 256 ^ 2) (by omega : us'.length < 256 ^ 2) hindex]
  -- and with it the length of the inner wire
  have hpos : 0 < ts.length := List.length_pos_iff.mpr hne
  have hinner : inner.length = inner'.length := by
    have hlen := congrArg List.length heq
    rw [chainMaterial_length, chainMaterial_length, hcount] at hlen
    have hsum := Nat.eq_of_mul_eq_mul_left (hcount ▸ hpos) hlen
    omega
  have hts := times_eq_of_chainMaterial hinner hcount heq
  subst hts
  obtain ⟨us, t, rfl⟩ := (List.eq_nil_or_concat' ts).resolve_left hne
  rw [chainMaterial_snoc, chainMaterial_snoc, signedMaterial, signedMaterial] at heq
  exact ⟨(List.append_inj heq hinner).1, rfl⟩

/-! ### Acceptance -/

variable (K : Crypto)

def RelayEnvelope.Opens (e : RelayEnvelope) (maxHops : ℕ) : Prop := ∃ inner, e.openHops K maxHops = .ok inner

/-- What the hop at an index signs. -/
def RelayEnvelope.materialAt (e : RelayEnvelope) (i : ℕ) : Bytes :=
  chainMaterial e.innerWire (times (e.hops.take (i + 1)))

variable {K}

theorem openLoop_ok_iff {innerWire preceding : Bytes} {i : ℕ} {hops : List Hop} :
    openLoop K innerWire preceding i hops = .ok () ↔
      ∀ j hop, hops[j]? = some hop →
        K.verifyCRDTFrame hop.relayPub (materialFrom innerWire preceding i (times (hops.take (j + 1)))) hop.sig.bytes
          = true := by
  induction hops generalizing preceding i with
  | nil => simp [openLoop]
  | cons h hops ih =>
    rw [openLoop]
    constructor
    · intro hok
      split at hok
      next hverify =>
        intro j hop hget
        cases j with
        | zero =>
          cases hget
          exact hverify
        | succ j => exact ih.mp hok j hop hget
      · cases hok
    · intro hall
      have hfirst : K.verifyCRDTFrame h.relayPub (signedMaterial innerWire preceding i h.wallUSec) h.sig.bytes
          = true := hall 0 h rfl
      rw [if_pos hfirst]
      exact ih.mpr fun j hop hget => hall (j + 1) hop hget

theorem opens_iff {e : RelayEnvelope} {maxHops : ℕ} :
    e.Opens K maxHops ↔ e.hops.length ≤ maxHops ∧
      ∀ j hop, e.hops[j]? = some hop → K.verifyCRDTFrame hop.relayPub (e.materialAt j) hop.sig.bytes = true := by
  have hloop : openLoop K e.innerWire [] 0 e.hops = .ok () ↔ _ := openLoop_ok_iff
  unfold RelayEnvelope.Opens RelayEnvelope.openHops
  constructor
  · rintro ⟨inner, hok⟩
    split at hok
    · cases hok
    next hle =>
      split at hok
      · cases hok
      next heq => exact ⟨Nat.not_lt.mp hle, hloop.mp heq⟩
  · rintro ⟨hle, hall⟩
    exact ⟨e.innerWire, by rw [if_neg (Nat.not_lt.mpr hle), hloop.mpr hall]⟩

/-! ### Replacing a relay -/

/-- The signatures that were made, and verify. -/
structure Ledger (K : Crypto) where
  signed : PublicKey → Bytes → FixedBytes 64 → Prop
  verifies : ∀ {pub msg sig}, signed pub msg sig → K.verifyCRDTFrame pub msg sig.bytes = true

variable {L : Ledger K}

/-- The holder of an honest key has made no signature for two messages. -/
def SingleMessage (L : Ledger K) (pub : PublicKey) : Prop :=
  ∀ m m' sig, L.signed pub m sig → L.signed pub m' sig → m = m'

def RelayEnvelope.replaceHop (e : RelayEnvelope) (j : ℕ) (pub : PublicKey) (sig : FixedBytes 64) : RelayEnvelope :=
  { e with hops := e.hops.modify j fun hop => { hop with relayPub := pub, sig } }

theorem times_replaceHop (e : RelayEnvelope) (j : ℕ) (pub : PublicKey) (sig : FixedBytes 64) (n : ℕ) :
    times ((e.replaceHop j pub sig).hops.take n) = times (e.hops.take n) := by
  have hall : times (e.replaceHop j pub sig).hops = times e.hops := by
    refine List.ext_getElem? fun k => ?_
    rw [times, times, RelayEnvelope.replaceHop, List.getElem?_map, List.getElem?_map, List.getElem?_modify]
    cases e.hops[k]? with
    | none => rfl
    | some hop =>
      by_cases hk : j = k
      · simp [hk]
      · simp [hk]
  rw [times, times, List.map_take, List.map_take]
  exact congrArg (List.take n) hall

theorem getElem?_replaceHop (e : RelayEnvelope) (j : ℕ) (pub : PublicKey) (sig : FixedBytes 64) (k : ℕ) :
    (e.replaceHop j pub sig).hops[k]?
      = if j = k then e.hops[k]?.map fun hop => { hop with relayPub := pub, sig } else e.hops[k]? := by
  rw [RelayEnvelope.replaceHop, List.getElem?_modify]
  split
  · rfl
  · exact congrFun Option.map_id _

/-- The signatures of the hops were made by the relays that they name. -/
def RelayEnvelope.Made (e : RelayEnvelope) (L : Ledger K) : Prop :=
  ∀ j hop, e.hops[j]? = some hop → L.signed hop.relayPub (e.materialAt j) hop.sig

/-- **A relay can be replaced** by whoever signs its material: every other hop still stands. -/
theorem made_replaceHop {e : RelayEnvelope} {j : ℕ} (h : e.Made L) {pub : PublicKey} {sig : FixedBytes 64}
    (hsig : L.signed pub (e.materialAt j) sig) : (e.replaceHop j pub sig).Made L := by
  intro k hop hget
  rw [RelayEnvelope.materialAt, times_replaceHop]
  rw [getElem?_replaceHop] at hget
  split at hget
  next hjk =>
    subst hjk
    obtain ⟨hop', hget', rfl⟩ := Option.map_eq_some_iff.mp hget
    exact hsig
  · exact h k hop hget

theorem RelayEnvelope.Made.opens {e : RelayEnvelope} {maxHops : ℕ} (h : e.Made L) (hle : e.hops.length ≤ maxHops) :
    e.Opens K maxHops :=
  opens_iff.mpr ⟨hle, fun j hop hget => L.verifies (h j hop hget)⟩

/-! ### Custody -/

def relays (hops : List Hop) : List PublicKey := hops.map Hop.relayPub

/-- An accepted envelope without forged signatures and with no more hops than indices, that has a signature of a key at
an index. -/
structure Carries (L : Ledger K) (e : RelayEnvelope) (pub : PublicKey) (sig : FixedBytes 64) (i : ℕ) : Prop where
  opens : ∃ maxHops, e.Opens K maxHops
  made : e.Made L
  few : e.hops.length ≤ 65536
  at_index : ∃ hop, e.hops[i]? = some hop ∧ hop.relayPub = pub ∧ hop.sig = sig

variable {e : RelayEnvelope} {pub : PublicKey} {sig : FixedBytes 64} {i : ℕ}

theorem Carries.lt_length (h : Carries L e pub sig i) : i < e.hops.length := by
  obtain ⟨hop, hget, -⟩ := h.at_index
  exact (List.getElem?_eq_some_iff.mp hget).1

theorem Carries.signed (h : Carries L e pub sig i) : L.signed pub (e.materialAt i) sig := by
  obtain ⟨hop, hget, rfl, rfl⟩ := h.at_index
  exact h.made i hop hget

theorem Carries.times_length (h : Carries L e pub sig i) : (times (e.hops.take (i + 1))).length = i + 1 := by
  have hlt := h.lt_length
  rw [times, List.length_map, List.length_take]
  omega

/-- What the material of a hop of an accepted envelope is the material of. -/
theorem Carries.materialAt_eq_iff (h : Carries L e pub sig i) {inner : Bytes} {ts : List Int64} (hne : ts ≠ [])
    (hle : ts.length ≤ 65536) :
    chainMaterial inner ts = e.materialAt i ↔ inner = e.innerWire ∧ ts = times (e.hops.take (i + 1)) := by
  have hlen := h.times_length
  have hfew := h.few
  have hlt := h.lt_length
  exact chainMaterial_eq_iff hne (fun hnil => by simp [hnil] at hlen) hle (by omega)

/-- A signature of a single message stands at one index, over one inner wire and one list of times. -/
theorem Carries.agree {e' : RelayEnvelope} {i' : ℕ} (h : Carries L e pub sig i) (h' : Carries L e' pub sig i')
    (hhonest : SingleMessage L pub) :
    i' = i ∧ e'.innerWire = e.innerWire ∧ times (e'.hops.take (i + 1)) = times (e.hops.take (i + 1)) := by
  have hlen' := h'.times_length
  have hfew' := h'.few
  have hlt' := h'.lt_length
  obtain ⟨hinner, htimes⟩ := (h.materialAt_eq_iff (fun hnil => by simp [hnil] at hlen') (by omega)).mp
    (hhonest _ _ _ h'.signed h.signed)
  have hindex : i' = i := by
    have hcount := congrArg List.length htimes
    rw [hlen', h.times_length] at hcount
    omega
  subst hindex
  exact ⟨rfl, hinner, htimes⟩

theorem Carries.replaceHop (h : Carries L e pub sig i) {j : ℕ} (hj : j < i) {pub' : PublicKey} {sig' : FixedBytes 64}
    (hsig : L.signed pub' (e.materialAt j) sig') : Carries L (e.replaceHop j pub' sig') pub sig i where
  opens := ⟨_, (made_replaceHop h.made hsig).opens le_rfl⟩
  made := made_replaceHop h.made hsig
  few := by
    rw [RelayEnvelope.replaceHop, List.length_modify]
    exact h.few
  at_index := by
    rw [getElem?_replaceHop, if_neg (by omega)]
    exact h.at_index

/-- **Chain of custody.**  The signature of an honest hop attests exactly the inner wire, its index and the times of the
hops up to it: two accepted envelopes with the signature agree on them.  They agree on the relays before it exactly when
no other key has signed the material of one of these. -/
theorem chain_of_custody_iff (K : Crypto) (L : Ledger K) {e : RelayEnvelope} {pub : PublicKey} {sig : FixedBytes 64}
    {i : ℕ} (h : Carries L e pub sig i) (hhonest : SingleMessage L pub) :
    (∀ inner ts, ts ≠ [] → ts.length ≤ 65536 →
      (chainMaterial inner ts = e.materialAt i ↔ inner = e.innerWire ∧ ts = times (e.hops.take (i + 1)))) ∧
    (∀ e' i', Carries L e' pub sig i' →
      i' = i ∧ e'.innerWire = e.innerWire ∧ times (e'.hops.take (i + 1)) = times (e.hops.take (i + 1))) ∧
    ((∀ e' i', Carries L e' pub sig i' → relays (e'.hops.take i) = relays (e.hops.take i)) ↔
      ∀ j hop, j < i → e.hops[j]? = some hop →
        ∀ pub' sig', L.signed pub' (e.materialAt j) sig' → pub' = hop.relayPub) := by
  refine ⟨fun inner ts hne hle => h.materialAt_eq_iff hne hle, fun e' i' h' => h.agree h' hhonest, ?_⟩
  constructor
  · intro hall j hop hj hget pub' sig' hsig
    have hrelays := congrArg (·[j]?) (hall _ i (h.replaceHop hj hsig))
    simp only [relays, List.getElem?_map, List.getElem?_take, if_pos hj] at hrelays
    rw [getElem?_replaceHop, if_pos rfl, hget] at hrelays
    simpa using hrelays
  · intro honly e' i' h'
    obtain ⟨rfl, hinner, htimes⟩ := h.agree h' hhonest
    refine List.ext_getElem? fun j => ?_
    simp only [relays, List.getElem?_map, List.getElem?_take]
    by_cases hj : j < i'
    · rw [if_pos hj, if_pos hj]
      have hlt := h.lt_length
      have hlt' := h'.lt_length
      have hget : e.hops[j]? = some e.hops[j] := List.getElem?_eq_getElem (by omega)
      have hget' : e'.hops[j]? = some e'.hops[j] := List.getElem?_eq_getElem (by omega)
      have hmaterial : e'.materialAt j = e.materialAt j := by
        have htake := congrArg (List.take (j + 1)) htimes
        simp only [times, ← List.map_take, List.take_take] at htake
        rw [Nat.min_eq_left (by omega)] at htake
        rw [RelayEnvelope.materialAt, RelayEnvelope.materialAt, hinner, times, times, htake]
      have hsigned := h'.made j _ hget'
      rw [hmaterial] at hsigned
      rw [hget, hget', Option.map_some, Option.map_some, honly j _ hj hget _ _ hsigned]
    · rw [if_neg hj, if_neg hj]

/-! ### A replaced relay -/

/-- Signatures that verify if they are in a list. -/
def listedCrypto (made : List (PublicKey × Bytes × FixedBytes 64)) : Crypto where
  rejectSmallOrderKey := fun _ => true
  ed25519Verify := fun pub msg sig => made.any fun m => m.1 = pub ∧ m.2.1 = msg ∧ m.2.2.bytes = sig
  mldsaVerify := fun _ _ _ => false
  shake256 := fun _ => .zero hybridFrameSize

def listedLedger (made : List (PublicKey × Bytes × FixedBytes 64)) : Ledger (listedCrypto made) where
  signed := fun pub msg sig => (pub, msg, sig) ∈ made
  verifies := fun {pub msg sig} h => by
    rw [Crypto.verifyCRDTFrame]
    exact List.any_eq_true.mpr ⟨_, h, by simp⟩

def sampleKey (b : UInt8) : PublicKey := .copyFrom 32 [b]

def sampleSig (b : UInt8) : FixedBytes 64 := .copyFrom 64 [b]

/-- A wire that one relay and then relay 2 forwarded. -/
def forwarded (first : UInt8) : RelayEnvelope :=
  ⟨[9], .zero 64, 1, .zero 16, 3, [⟨sampleKey first, sampleSig first, 5⟩, ⟨sampleKey 2, sampleSig 2, 6⟩]⟩

/-- What relay 2 has signed, and what the relays before it have. -/
def forwardedBy (firsts : List UInt8) : List (PublicKey × Bytes × FixedBytes 64) :=
  (sampleKey 2, chainMaterial [9] [5, 6], sampleSig 2) ::
    firsts.map fun b => (sampleKey b, chainMaterial [9] [5], sampleSig b)

theorem singleMessage_forwardedBy {firsts : List UInt8} (h : ∀ b ∈ firsts, sampleKey b ≠ sampleKey 2) :
    SingleMessage (listedLedger (forwardedBy firsts)) (sampleKey 2) := by
  have hmsg : ∀ m sig, (sampleKey 2, m, sig) ∈ forwardedBy firsts → m = chainMaterial [9] [5, 6] := by
    intro m sig hmem
    rcases List.mem_cons.mp hmem with heq | hmem
    · cases heq
      rfl
    · obtain ⟨b, hb, heq⟩ := List.mem_map.mp hmem
      exact absurd (congrArg Prod.fst heq) (h b hb)
  intro m m' sig hm hm'
  rw [hmsg m sig hm, hmsg m' sig hm']

set_option maxRecDepth 100000 in
theorem carries_forwarded : Carries (listedLedger (forwardedBy [1])) (forwarded 1) (sampleKey 2) (sampleSig 2) 1 := by
  have hmade : (forwarded 1).Made (listedLedger (forwardedBy [1])) := by
    intro j hop hget
    match j with
    | 0 | 1 =>
      cases hget
      show _ ∈ forwardedBy [1]
      decide +kernel
    | j + 2 => cases hget
  exact ⟨⟨_, hmade.opens le_rfl⟩, hmade, by decide, _, rfl, rfl, rfl⟩

/-- While only relay 1 has signed the first hop, every envelope with the signature of relay 2 names it. -/
theorem chain_of_custody_on_sample :
    (forwarded 1).openHops (listedCrypto (forwardedBy [1])) 15 = .ok [9] ∧
      ∀ e' i', Carries (listedLedger (forwardedBy [1])) e' (sampleKey 2) (sampleSig 2) i' →
        relays (e'.hops.take 1) = [sampleKey 1] := by
  refine ⟨by decide +kernel, ((chain_of_custody_iff _ _ carries_forwarded
    (singleMessage_forwardedBy (by decide +kernel))).2.2).mpr fun j hop hj hget pub' sig' hsigned => ?_⟩
  obtain rfl : j = 0 := by omega
  cases hget
  rcases List.mem_cons.mp hsigned with heq | hmem
  · have hne : (forwarded 1).materialAt 0 ≠ chainMaterial [9] [5, 6] := by decide +kernel
    exact absurd (congrArg (·.2.1) heq) hne
  · simpa using congrArg Prod.fst (List.mem_singleton.mp hmem)

set_option maxRecDepth 100000 in
/-- Relay 3 signs the first hop too and takes the place of relay 1 in front of the honest relay 2, whose hop stays as it
is. -/
theorem earlier_relay_replaced :
    SingleMessage (listedLedger (forwardedBy [1, 3])) (sampleKey 2) ∧
      (forwarded 1).openHops (listedCrypto (forwardedBy [1, 3])) 15 = .ok [9] ∧
      (forwarded 3).openHops (listedCrypto (forwardedBy [1, 3])) 15 = .ok [9] ∧
      (forwarded 1).hops[1]? = (forwarded 3).hops[1]? ∧
      relays ((forwarded 1).hops.take 1) ≠ relays ((forwarded 3).hops.take 1) :=
  ⟨singleMessage_forwardedBy (by decide +kernel), by decide +kernel⟩

end Sovereign.Attribution
