import Sovereign.Lib.Run

/-!
# Revoked leaves

`pkg/transport/tls_transport.go`: the list of revoked serials, its reload, and the callback that both configurations
install.  `crypto/tls` runs the callback in full handshakes and not in resumed ones, and a server that does not disable
tickets resumes a session with the certificate recorded in it; a client resumes only from a session cache.

`ServerConfig` leaves tickets on, so a peer whose leaf has been revoked comes back on a session from before
(`revoked_peer_resumes`).  `revoked_leaf_never_completes` is what remains: in every run in which no session is resumed
whose leaf is on the list in force, no handshake completes with a leaf that has been on the list ever since it started.
-/

namespace Sovereign.Transport

open Lib

/-- What of a certificate matters here. -/
structure Cert where
  serial : ℤ
  issuer : ℕ
deriving DecidableEq

structure TLSConnections where
  caPool : List ℕ
  leaf : Cert
  crlPath : String
  revokedSerials : List ℤ

/-- What is found at the path of the list; an entry may have no serial. -/
inductive CRLFile where
  | unreadable
  | notPEM
  | unparsable
  | revocationList (entries : List (Option ℤ))

inductive ReloadError where
  | noCRLPath
  | readCRL
  | notPEM
  | parseCRL
  | readCA
  | noCALoaded
  | leafKeypair
deriving DecidableEq

inductive VerifyError where
  | parse
  | certRevoked
deriving DecidableEq

/-- The fields of `tls.Config` that decide who gets in. -/
structure Config where
  cas : List ℕ
  verifyPeerCertificate : Bool
  sessionTicketsDisabled : Bool
  clientSessionCache : Bool

namespace TLSConnections

/-- `reloadCRL`, behind `LoadCRL` and `ReloadCRL`. -/
def reloadCRL (t : TLSConnections) (file : CRLFile) : TLSConnections × Option ReloadError :=
  if t.crlPath = "" then (t, some .noCRLPath)
  else
    match file with
    | .unreadable => (t, some .readCRL)
    | .notPEM => (t, some .notPEM)
    | .unparsable => (t, some .parseCRL)
    | .revocationList entries => ({ t with revokedSerials := entries.reduceOption }, none)

/-- `ReloadCA`: the file, if it can be read, with the certificates in it. -/
def reloadCA (t : TLSConnections) : Option (List ℕ) → TLSConnections × Option ReloadError
  | none => (t, some .readCA)
  | some [] => (t, some .noCALoaded)
  | some pool => ({ t with caPool := pool }, none)

def reload (t : TLSConnections) : Option Cert → TLSConnections × Option ReloadError
  | none => (t, some .leafKeypair)
  | some leaf => ({ t with leaf := leaf }, none)

def verifyPeerCertificate (t : TLSConnections) (rawCerts : List (Option Cert)) : Option VerifyError :=
  match rawCerts with
  | [] => none
  | leaf :: _ =>
    if t.revokedSerials.isEmpty then none
    else
      match leaf with
      | none => some .parse
      | some leaf => if leaf.serial ∈ t.revokedSerials then some .certRevoked else none

def serverConfig (t : TLSConnections) : Config := ⟨t.caPool, true, false, false⟩

def clientConfig (t : TLSConnections) : Config := ⟨t.caPool, true, false, false⟩

end TLSConnections

/-! ### Handshakes -/

inductive Side where
  | server
  | client
deriving DecidableEq

/-- A handshake in flight.  `outlawed` are the serials that have been on every list in force since it started. -/
structure Handshake where
  side : Side
  peer : Cert
  resumed : Bool
  config : Config
  verified : Bool
  outlawed : List ℤ

/-- A transport with the sessions it has issued and its handshakes. -/
structure Node where
  tls : TLSConnections
  sessions : List Cert
  handshakes : List Handshake

inductive Action where
  | reloadCRL (file : CRLFile)
  | reloadCA (file : Option (List ℕ))
  | reload (file : Option Cert)
  | start (side : Side) (peer : Cert)
  | resume (side : Side) (peer : Cert)
  | verify (i : ℕ)
  | complete (i : ℕ)

namespace Node

def config (n : Node) : Side → Config
  | .server => n.tls.serverConfig
  | .client => n.tls.clientConfig

/-- `crypto/tls` may resume a session with this peer. -/
def mayResume (n : Node) (side : Side) (peer : Cert) : Bool :=
  match side with
  | .server => !(n.config side).sessionTicketsDisabled && decide (peer ∈ n.sessions)
  | .client => (n.config side).clientSessionCache

/-- A handshake that starts now. -/
def begin (n : Node) (side : Side) (peer : Cert) (resumed : Bool) : Node :=
  { n with handshakes := n.handshakes ++ [⟨side, peer, resumed, n.config side, false, n.tls.revokedSerials⟩] }

/-- The chain is checked first, then the callback is called. -/
def admits (n : Node) (h : Handshake) : Bool :=
  decide (h.peer.issuer ∈ h.config.cas) &&
    (!h.config.verifyPeerCertificate || (n.tls.verifyPeerCertificate [some h.peer]).isNone)

/-- One step, with the handshake that it completes; a handshake that is not admitted is aborted. -/
def step (n : Node) : Action → Option (Node × List Handshake)
  | .reloadCRL file =>
    match n.tls.reloadCRL file with
    | (tls, some _) => some ({ n with tls := tls }, [])
    | (tls, none) =>
      some ({ n with
        tls := tls
        handshakes := n.handshakes.map fun h =>
          { h with outlawed := h.outlawed.filter (· ∈ tls.revokedSerials) } }, [])
  | .reloadCA file => some ({ n with tls := (n.tls.reloadCA file).1 }, [])
  | .reload file => some ({ n with tls := (n.tls.reload file).1 }, [])
  | .start side peer => some (n.begin side peer false, [])
  | .resume side peer => if n.mayResume side peer then some (n.begin side peer true, []) else none
  | .verify i =>
    match n.handshakes[i]? with
    | none => none
    | some h =>
      if h.resumed then none
      else if n.admits h then some ({ n with handshakes := n.handshakes.set i { h with verified := true } }, [])
      else some ({ n with handshakes := n.handshakes.eraseIdx i }, [])
  | .complete i =>
    match n.handshakes[i]? with
    | none => none
    | some h =>
      if h.resumed || h.verified then
        some ({ n with
          sessions := if h.side = .server then h.peer :: n.sessions else n.sessions
          handshakes := n.handshakes.eraseIdx i }, [h])
      else none

/-- No session is resumed whose leaf is on the list in force. -/
def resumesUnrevoked (n : Node) : Action → Bool
  | .resume _ peer => peer.serial ∉ n.tls.revokedSerials
  | _ => true

end Node

/-- What holds of a handshake in flight, with the list in force. -/
structure Handshake.Sound (revoked : List ℤ) (h : Handshake) : Prop where
  listed : ∀ s ∈ h.outlawed, s ∈ revoked
  passed : h.resumed = true ∨ h.verified = true → h.peer.serial ∉ h.outlawed
  callback : h.config.verifyPeerCertificate = true

section
variable {n n' : Node} {a : Action} {out : List Handshake} {t : TLSConnections}

/-- **A failed reload changes nothing.** -/
theorem reloads_of_error (t : TLSConnections) :
    (∀ file, (t.reloadCRL file).2 ≠ none → (t.reloadCRL file).1 = t) ∧
      (∀ file, (t.reloadCA file).2 ≠ none → (t.reloadCA file).1 = t) ∧
      ∀ file, (t.reload file).2 ≠ none → (t.reload file).1 = t := by
  refine ⟨fun file h => ?_, fun file h => ?_, fun file h => ?_⟩
  · unfold TLSConnections.reloadCRL at h ⊢
    split
    · rfl
    · next hpath =>
      cases file with
      | revocationList entries => exact absurd (by rw [if_neg hpath]) h
      | _ => rfl
  · rcases file with _ | _ | ⟨ca, cas⟩
    · rfl
    · rfl
    · exact absurd rfl h
  · cases file with
    | none => rfl
    | some leaf => exact absurd rfl h

theorem revokedSerials_reloadCA (file : Option (List ℕ)) :
    (t.reloadCA file).1.revokedSerials = t.revokedSerials := by
  rcases file with _ | _ | ⟨ca, cas⟩ <;> rfl

theorem revokedSerials_reload (file : Option Cert) : (t.reload file).1.revokedSerials = t.revokedSerials := by
  cases file <;> rfl

theorem not_revoked_of_admits {h : Handshake} (hcallback : h.config.verifyPeerCertificate = true)
    (hadmits : n.admits h = true) : h.peer.serial ∉ n.tls.revokedSerials := by
  have hnone : n.tls.verifyPeerCertificate [some h.peer] = none := by
    simpa [Node.admits, hcallback] using (Bool.and_eq_true_iff.mp hadmits).2
  intro hmem
  have hne : n.tls.revokedSerials.isEmpty = false := by
    rw [List.isEmpty_eq_false_iff]
    exact List.ne_nil_of_mem hmem
  simp [TLSConnections.verifyPeerCertificate, hne, hmem] at hnone

theorem sound_begin (h : ∀ x ∈ n.handshakes, x.Sound n.tls.revokedSerials) (side : Side) {peer : Cert} {resumed : Bool}
    (hpeer : resumed = true → peer.serial ∉ n.tls.revokedSerials) :
    ∀ x ∈ (n.begin side peer resumed).handshakes, x.Sound n.tls.revokedSerials := by
  intro x hx
  rcases List.mem_append.mp hx with hx | hx
  · exact h x hx
  · rw [List.mem_singleton.mp hx]
    refine ⟨fun s hs => hs, fun hpassed => ?_, by cases side <;> rfl⟩
    exact hpeer (hpassed.resolve_right Bool.false_ne_true)

/-- **One step** keeps the handshakes in flight sound, and what it completes was sound. -/
theorem Node.step_sound (h : ∀ x ∈ n.handshakes, x.Sound n.tls.revokedSerials) (hG : n.resumesUnrevoked a = true)
    (hstep : n.step a = some (n', out)) :
    (∀ x ∈ n'.handshakes, x.Sound n'.tls.revokedSerials) ∧ ∀ x ∈ out, x.peer.serial ∉ x.outlawed := by
  cases a with
  | reloadCRL file =>
    rw [Node.step] at hstep
    split at hstep
    · next tls err hcall =>
      cases hstep
      have hsame := (reloads_of_error n.tls).1 file (by rw [hcall]; exact Option.some_ne_none err)
      obtain rfl : tls = n.tls := by rwa [hcall] at hsame
      exact ⟨h, nofun⟩
    · next tls hcall =>
      cases hstep
      refine ⟨fun x hx => ?_, nofun⟩
      obtain ⟨y, hy, rfl⟩ := List.mem_map.mp hx
      refine ⟨fun s hs => of_decide_eq_true (List.mem_filter.mp hs).2, fun hpassed hs => ?_, (h y hy).callback⟩
      exact (h y hy).passed hpassed (List.mem_filter.mp hs).1
  | reloadCA file =>
    cases hstep
    exact ⟨(revokedSerials_reloadCA file).symm ▸ h, nofun⟩
  | reload file =>
    cases hstep
    exact ⟨(revokedSerials_reload file).symm ▸ h, nofun⟩
  | start side peer =>
    cases hstep
    exact ⟨sound_begin h side nofun, nofun⟩
  | resume side peer =>
    rw [Node.step] at hstep
    split at hstep
    · cases hstep
      exact ⟨sound_begin h side fun _ => of_decide_eq_true hG, nofun⟩
    · cases hstep
  | verify i =>
    rw [Node.step] at hstep
    split at hstep
    · cases hstep
    · next x hx =>
      have hin := List.mem_of_getElem? hx
      split at hstep
      · cases hstep
      · split at hstep
        · next hadmits =>
          cases hstep
          refine ⟨fun y hy => ?_, nofun⟩
          rcases List.mem_or_eq_of_mem_set hy with hy | rfl
          · exact h y hy
          · have hfree := not_revoked_of_admits (h x hin).callback hadmits
            exact ⟨(h x hin).listed, fun _ hs => hfree ((h x hin).listed _ hs), (h x hin).callback⟩
        · cases hstep
          exact ⟨fun y hy => h y (List.mem_of_mem_eraseIdx hy), nofun⟩
  | complete i =>
    rw [Node.step] at hstep
    split at hstep
    · cases hstep
    · next x hx =>
      split at hstep
      · next hpassed =>
        cases hstep
        refine ⟨fun y hy => h y (List.mem_of_mem_eraseIdx hy), fun y hy => ?_⟩
        rw [List.mem_singleton.mp hy]
        exact (h x (List.mem_of_getElem? hx)).passed (by simpa using hpassed)
      · cases hstep

/-- **A revoked leaf never completes a handshake**: in every run of reloads and handshakes that resumes no session
whose leaf is on the list in force, no handshake completes with a leaf that has been on every list in force since it
started; and a failed reload changes nothing. -/
theorem revoked_leaf_never_completes {steps : List Action} {log : List Handshake} (hidle : n.handshakes = [])
    (hG : Meets Node.step (·.resumesUnrevoked · = true) n steps) (hrun : run Node.step n steps = some (n', log)) :
    (∀ h ∈ log, h.peer.serial ∉ h.outlawed) ∧
      ∀ t : TLSConnections, (∀ file, (t.reloadCRL file).2 ≠ none → (t.reloadCRL file).1 = t) ∧
        (∀ file, (t.reloadCA file).2 ≠ none → (t.reloadCA file).1 = t) ∧
        ∀ file, (t.reload file).2 ≠ none → (t.reload file).1 = t := by
  have hinv : (∀ x ∈ n'.handshakes, x.Sound n'.tls.revokedSerials) ∧ ∀ h ∈ [] ++ log, h.peer.serial ∉ h.outlawed :=
    run_invariant (G := (·.resumesUnrevoked · = true))
      (P := fun n log => (∀ x ∈ n.handshakes, x.Sound n.tls.revokedSerials) ∧ ∀ h ∈ log, h.peer.serial ∉ h.outlawed)
      (fun n log a n' out hP hG hstep => by
        obtain ⟨hsound, hout⟩ := Node.step_sound hP.1 hG hstep
        exact ⟨hsound, fun h hh => (List.mem_append.mp hh).elim (hP.2 h) (hout h)⟩)
      ⟨by rw [hidle]; exact List.forall_mem_nil _, List.forall_mem_nil _⟩ hG hrun
  exact ⟨hinv.2, reloads_of_error⟩

def sampleNode : Node := ⟨⟨[1], ⟨1, 1⟩, "crl.pem", []⟩, [], []⟩

/-- A peer gets in, its leaf is revoked, and it starts anew. -/
def revokedSteps (again : Action) : List Action :=
  [.start .server ⟨7, 1⟩, .verify 0, .complete 0, .reloadCRL (.revocationList [some 7]), again]

theorem revoked_leaf_never_completes_on_sample :
    ∃ n' log, run Node.step sampleNode (revokedSteps (.start .server ⟨7, 1⟩) ++ [.verify 0]) = some (n', log) ∧
      ∀ h ∈ log, h.peer.serial ∉ h.outlawed :=
  ⟨_, _, rfl, (@revoked_leaf_never_completes sampleNode _ (revokedSteps (.start .server ⟨7, 1⟩) ++ [.verify 0]) _ rfl
    (by decide) rfl).1⟩

/-- **A revoked peer resumes**: the session from before completes while its leaf is on the list. -/
theorem revoked_peer_resumes :
    ∃ n' log, run Node.step sampleNode (revokedSteps (.resume .server ⟨7, 1⟩) ++ [.complete 0]) = some (n', log) ∧
      ∃ h ∈ log, h.peer.serial ∈ h.outlawed :=
  ⟨_, _, rfl, _, List.mem_cons_of_mem _ (List.mem_singleton_self _), by decide⟩

end

end Sovereign.Transport
