import Mathlib

/-!
# Jittered backoff

`ComputeDelay` and the retry loop of `DoWithRetry`, over the 64-bit words of the source.  The doubling,
the tripling and the `+1` of the draw may each wrap, and no wrap takes a delay over the cap.  What is
never clamped is the base delay: a base above the cap comes back as it is.  And the nanoseconds of a
`time.Duration` wrap from 9223372036855 ms on.  So the delays keep to the documented ranges and are slept as
they are exactly under `BackoffConfig.Capped` and `BackoffConfig.Sleepable` (`computeDelay_within_iff`).
-/

namespace Sovereign.Network

/-! ### The generator -/

structure SplitMix64 where
  state : UInt64

def SplitMix64.next (s : SplitMix64) : UInt64 × SplitMix64 :=
  let state := s.state + 0x9e3779b97f4a7c15
  let z := (state ^^^ (state >>> 30)) * 0xbf58476d1ce4e5b9
  let z := (z ^^^ (z >>> 27)) * 0x94d049bb133111eb
  (z ^^^ (z >>> 31), ⟨state⟩)

def SplitMix64.boundedNext (s : SplitMix64) (bound : UInt64) : UInt64 × SplitMix64 :=
  if bound ≤ 1 then (0, s) else (s.next.1 % bound, s.next.2)

/-- A shift by a third of the word or more is undone by the shifts by it and by its double. -/
theorem xorShift_inverse (y : BitVec 64) (n : ℕ) (hn : 64 ≤ n + n + n) :
    (y ^^^ y >>> n ^^^ y >>> (n + n)) ^^^ (y ^^^ y >>> n ^^^ y >>> (n + n)) >>> n = y := by
  ext i hi
  have h : y.getLsbD (n + (n + (n + i))) = false := BitVec.getLsbD_of_ge _ _ (by omega)
  simp [BitVec.getElem_xor, BitVec.getElem_ushiftRight, h, Nat.add_assoc]

theorem SplitMix64.exists_next_eq (y : UInt64) : ∃ s : SplitMix64, s.next.1 = y := by
  have h30 (y : UInt64) : ∃ z : UInt64, z ^^^ (z >>> 30) = y :=
    ⟨y ^^^ (y >>> 30) ^^^ (y >>> 60),
      UInt64.toBitVec_inj.mp (by simpa using xorShift_inverse y.toBitVec 30 (by omega))⟩
  have h27 (y : UInt64) : ∃ z : UInt64, z ^^^ (z >>> 27) = y :=
    ⟨y ^^^ (y >>> 27) ^^^ (y >>> 54),
      UInt64.toBitVec_inj.mp (by simpa using xorShift_inverse y.toBitVec 27 (by omega))⟩
  have h31 (y : UInt64) : ∃ z : UInt64, z ^^^ (z >>> 31) = y :=
    ⟨y ^^^ (y >>> 31) ^^^ (y >>> 62),
      UInt64.toBitVec_inj.mp (by simpa using xorShift_inverse y.toBitVec 31 (by omega))⟩
  -- the multipliers are odd, hence units
  obtain ⟨c, rfl⟩ := h31 y
  obtain ⟨b, hb⟩ := h27 (c * 0x319642b2d24d8ec3)
  obtain ⟨a, ha⟩ := h30 (b * 0x96de1b173f119089)
  refine ⟨⟨a - 0x9e3779b97f4a7c15⟩, ?_⟩
  have hb1 : b * 0x96de1b173f119089 * 0xbf58476d1ce4e5b9 = b := by
    rw [UInt64.mul_assoc]; exact UInt64.mul_one b
  have hc1 : c * 0x319642b2d24d8ec3 * 0x94d049bb133111eb = c := by
    rw [UInt64.mul_assoc]; exact UInt64.mul_one c
  simp only [SplitMix64.next, UInt64.sub_add_cancel, ha, hb1, hb, hc1]

/-- The draw from `[0, n]`; at `n = 2^64 - 1` the bound has wrapped to zero and the draw is zero. -/
theorem SplitMix64.boundedNext_succ_le (s : SplitMix64) (n : UInt64) : (s.boundedNext (n + 1)).1 ≤ n := by
  rw [SplitMix64.boundedNext]
  split
  · exact UInt64.zero_le
  · rename_i h
    have h1 : 1 < (n + 1).toNat := UInt64.lt_iff_toNat_lt.mp (UInt64.not_le.mp h)
    rw [UInt64.le_iff_toNat_le, UInt64.toNat_mod]
    have h2 := Nat.mod_lt s.next.1.toNat (show 0 < (n + 1).toNat by omega)
    rw [UInt64.toNat_add, UInt64.toNat_one] at *
    omega

theorem SplitMix64.exists_boundedNext_succ {n : UInt64} (hn : n.toNat ≠ 2 ^ 64 - 1) :
    ∃ s : SplitMix64, (s.boundedNext (n + 1)).1 = n := by
  obtain ⟨s, hs⟩ := SplitMix64.exists_next_eq n
  refine ⟨s, UInt64.toNat_inj.mp ?_⟩
  have hsucc : (n + 1).toNat = n.toNat + 1 := by
    rw [UInt64.toNat_add, UInt64.toNat_one]
    have := n.toNat_lt
    omega
  rw [SplitMix64.boundedNext]
  split
  next hle =>
    rw [UInt64.le_iff_toNat_le, hsucc, UInt64.toNat_one] at hle
    exact (Nat.le_zero.mp (Nat.le_of_succ_le_succ hle)).symm
  · rw [UInt64.toNat_mod, hs, hsucc, Nat.mod_eq_of_lt (Nat.lt_succ_self _)]

theorem SplitMix64.boundedNext_zero {s : SplitMix64} (h : s.next.1 = 0) (bound : UInt64) :
    (s.boundedNext bound).1 = 0 := by
  rw [SplitMix64.boundedNext]
  split
  · rfl
  · rw [h, UInt64.zero_mod]

/-! ### One delay -/

inductive JitterStrategy where
  | fullJitter
  | decorrelatedJitter
  deriving DecidableEq

structure BackoffConfig where
  baseDelayMs : UInt64
  capMs : UInt64
  maxRetries : Int
  strategy : JitterStrategy

namespace BackoffConfig

variable (cfg : BackoffConfig)

/-- The doubling loop of full jitter: `n` turns are left. -/
def doubled : ℕ → UInt64 → UInt64
  | 0, exp => exp
  | n + 1, exp => if exp * 2 > cfg.capMs then cfg.capMs else doubled n (exp * 2)

/-- The upper end of the decorrelated range, after both clamps. -/
def upper (prevSleepMs : UInt64) : UInt64 :=
  let upper := prevSleepMs * 3
  let upper := if upper < cfg.baseDelayMs then cfg.baseDelayMs else upper
  if upper > cfg.capMs then cfg.capMs else upper

def computeDelay (attempt : Int) (prevSleepMs : UInt64) (rng : SplitMix64) : UInt64 × SplitMix64 :=
  match cfg.strategy with
  | .decorrelatedJitter =>
    let span := cfg.upper prevSleepMs - cfg.baseDelayMs
    if span = 0 then (cfg.baseDelayMs, rng)
    else (cfg.baseDelayMs + (rng.boundedNext (span + 1)).1, (rng.boundedNext (span + 1)).2)
  | .fullJitter => rng.boundedNext (cfg.doubled attempt.toNat cfg.baseDelayMs + 1)

/-- The documented range of a delay: `random_between(0, min(cap, base * 2^attempt))` and
`min(cap, random_between(base, prev * 3))`, without wraparound. -/
def Documented (attempt : ℕ) (prevSleepMs delayMs : UInt64) : Prop :=
  match cfg.strategy with
  | .fullJitter => delayMs.toNat ≤ min cfg.capMs.toNat (cfg.baseDelayMs.toNat * 2 ^ attempt)
  | .decorrelatedJitter =>
    min cfg.baseDelayMs.toNat cfg.capMs.toNat ≤ delayMs.toNat ∧
      delayMs.toNat ≤ min cfg.capMs.toNat (prevSleepMs.toNat * 3)

/-- The bounds on a single call, whatever the previous delay is. -/
def Within (delayMs : UInt64) : Prop :=
  delayMs ≤ cfg.capMs ∧ (cfg.strategy = .decorrelatedJitter →
    min cfg.baseDelayMs.toNat cfg.capMs.toNat ≤ delayMs.toNat)

/-- The base fits under the cap, or full jitter has nothing to draw from. -/
def Capped : Prop :=
  cfg.baseDelayMs ≤ cfg.capMs ∨ cfg.strategy = .fullJitter ∧ cfg.baseDelayMs = 0xffffffffffffffff

/-- The cap can be slept, or there is nothing to sleep. -/
def Sleepable : Prop :=
  cfg.capMs ≤ 9223372036854 ∨ cfg.strategy = .fullJitter ∧ cfg.baseDelayMs = 0

variable {cfg}

theorem toNat_mul_le (a b : UInt64) : (a * b).toNat ≤ a.toNat * b.toNat := by
  rw [UInt64.toNat_mul]
  exact Nat.mod_le _ _

theorem doubled_le (h : exp ≤ cfg.capMs) (n : ℕ) :
    cfg.doubled n exp ≤ cfg.capMs ∧ (cfg.doubled n exp).toNat ≤ exp.toNat * 2 ^ n := by
  induction n generalizing exp with
  | zero => exact ⟨h, by simp [doubled]⟩
  | succ n ih =>
    have htwice : (exp * 2).toNat ≤ exp.toNat * 2 := toNat_mul_le exp 2
    rw [doubled]
    split
    next hover =>
      refine ⟨UInt64.le_refl _, ?_⟩
      calc cfg.capMs.toNat ≤ exp.toNat * 2 := (Nat.le_of_lt hover).trans htwice
        _ ≤ exp.toNat * 2 ^ (n + 1) := Nat.mul_le_mul_left _ (Nat.le_self_pow (Nat.succ_ne_zero n) 2)
    next hunder =>
      obtain ⟨hcap, hexp⟩ := ih (UInt64.not_lt.mp hunder)
      refine ⟨hcap, hexp.trans ?_⟩
      calc (exp * 2).toNat * 2 ^ n ≤ exp.toNat * 2 * 2 ^ n := Nat.mul_le_mul_right _ htwice
        _ = exp.toNat * 2 ^ (n + 1) := by rw [pow_succ]; ring

/-- The largest base doubles to `2^64 - 2`, which a smaller cap holds at least. -/
theorem boundedNext_doubled_max (hbase : cfg.baseDelayMs = 0xffffffffffffffff) (n : ℕ) (rng : SplitMix64) :
    (rng.boundedNext (cfg.doubled n cfg.baseDelayMs + 1)).1 ≤ cfg.capMs := by
  cases n with
  | zero =>
    rw [doubled, hbase]
    exact UInt64.zero_le
  | succ n =>
    refine UInt64.le_trans (rng.boundedNext_succ_le _) ?_
    rw [doubled, hbase]
    split
    · exact UInt64.le_refl _
    · rename_i hunder
      exact (doubled_le (UInt64.not_lt.mp hunder) n).1

theorem computeDelay_full (hs : cfg.strategy = .fullJitter) (hc : cfg.Capped) (attempt : Int)
    (prev : UInt64) (rng : SplitMix64) :
    (cfg.computeDelay attempt prev rng).1.toNat ≤
      min cfg.capMs.toNat (cfg.baseDelayMs.toNat * 2 ^ attempt.toNat) := by
  rw [computeDelay, hs]
  rcases hc with hle | ⟨-, hmax⟩
  · obtain ⟨hcap, hexp⟩ := doubled_le hle attempt.toNat
    have hdraw := UInt64.le_iff_toNat_le.mp (rng.boundedNext_succ_le (cfg.doubled attempt.toNat cfg.baseDelayMs))
    exact le_min (hdraw.trans hcap) (hdraw.trans hexp)
  · refine le_min (boundedNext_doubled_max hmax attempt.toNat rng) ?_
    calc _ ≤ cfg.baseDelayMs.toNat := by rw [hmax]; exact Nat.le_of_lt_succ (UInt64.toNat_lt _)
      _ ≤ _ := Nat.le_mul_of_pos_right _ (Nat.two_pow_pos _)

theorem upper_mem (h : cfg.baseDelayMs ≤ cfg.capMs) (prev : UInt64) :
    cfg.baseDelayMs ≤ cfg.upper prev ∧ cfg.upper prev ≤ cfg.capMs ∧
      (cfg.upper prev).toNat ≤ max cfg.baseDelayMs.toNat (prev.toNat * 3) := by
  have htriple : (prev * 3).toNat ≤ prev.toNat * 3 := toNat_mul_le prev 3
  simp only [upper, UInt64.le_iff_toNat_le, UInt64.lt_iff_toNat_lt, gt_iff_lt] at *
  split_ifs <;> omega

theorem computeDelay_decorrelated (hs : cfg.strategy = .decorrelatedJitter)
    (h : cfg.baseDelayMs ≤ cfg.capMs) (attempt : Int) (prev : UInt64) (rng : SplitMix64) :
    cfg.baseDelayMs ≤ (cfg.computeDelay attempt prev rng).1 ∧
      (cfg.computeDelay attempt prev rng).1 ≤ cfg.upper prev := by
  have hbase := (upper_mem h prev).1
  have hdraw := rng.boundedNext_succ_le (cfg.upper prev - cfg.baseDelayMs)
  rw [computeDelay, hs]
  dsimp only
  split
  · exact ⟨UInt64.le_refl _, hbase⟩
  · have hspan := UInt64.toNat_sub_of_le _ _ hbase
    have hlt := (cfg.upper prev).toNat_lt
    simp only [UInt64.le_iff_toNat_le, UInt64.toNat_add] at *
    omega

theorem Capped.base_le (hc : cfg.Capped) (hs : cfg.strategy = .decorrelatedJitter) :
    cfg.baseDelayMs ≤ cfg.capMs :=
  hc.resolve_right (by simp [hs])

theorem Capped.within (hc : cfg.Capped) (attempt : Int) (prev : UInt64) (rng : SplitMix64) :
    cfg.Within (cfg.computeDelay attempt prev rng).1 := by
  cases hs : cfg.strategy with
  | fullJitter =>
    exact ⟨(computeDelay_full hs hc attempt prev rng).trans (min_le_left _ _), by simp [hs]⟩
  | decorrelatedJitter =>
    have hle := hc.base_le hs
    obtain ⟨hlow, hhigh⟩ := computeDelay_decorrelated hs hle attempt prev rng
    exact ⟨UInt64.le_trans hhigh (upper_mem hle prev).2.1,
      fun _ => (min_le_left _ _).trans (UInt64.le_iff_toNat_le.mp hlow)⟩

/-- A base over the cap is the delay of some draw. -/
theorem exists_over_cap (h : ¬cfg.Capped) : ∃ rng, (cfg.computeDelay 0 0 rng).1 = cfg.baseDelayMs := by
  cases hs : cfg.strategy with
  | fullJitter =>
    simp only [computeDelay, hs]
    exact SplitMix64.exists_boundedNext_succ fun heq => h (.inr ⟨hs, UInt64.toNat_inj.mp heq⟩)
  | decorrelatedJitter =>
    obtain ⟨rng, hrng⟩ := SplitMix64.exists_next_eq 0
    refine ⟨rng, ?_⟩
    rw [computeDelay, hs]
    dsimp only
    split
    · rfl
    · rw [SplitMix64.boundedNext_zero hrng, UInt64.add_zero]

theorem Sleepable.computeDelay_le (h : cfg.Sleepable) (hc : cfg.Capped) (attempt : Int) (prev : UInt64)
    (rng : SplitMix64) : (cfg.computeDelay attempt prev rng).1 ≤ 9223372036854 := by
  rcases h with hcap | ⟨hs, hbase⟩
  · exact UInt64.le_trans (hc.within attempt prev rng).1 hcap
  · have hle := (computeDelay_full hs hc attempt prev rng).trans (min_le_right _ _)
    rw [hbase, UInt64.toNat_zero, Nat.zero_mul] at hle
    exact hle.trans (Nat.zero_le _)

/-- The doubling gets past every `Duration` below the cap, and stays below the wrap of the draw. -/
theorem exists_doubled (hcap : 9223372036854 < cfg.capMs.toNat) (exp : UInt64) (hexp : 0 < exp.toNat) :
    ∃ n, 9223372036854 < (cfg.doubled n exp).toNat ∧ (cfg.doubled n exp).toNat ≠ 2 ^ 64 - 1 := by
  have hlt := exp.toNat_lt
  have htwice : (exp * 2).toNat = exp.toNat * 2 % 2 ^ 64 := UInt64.toNat_mul exp 2
  have hone : cfg.doubled 1 exp = if exp * 2 > cfg.capMs then cfg.capMs else exp * 2 := rfl
  by_cases hmax : exp.toNat = 2 ^ 64 - 1
  · refine ⟨1, ?_⟩
    rw [hone]
    split
    next hover =>
      have hover := UInt64.lt_iff_toNat_lt.mp hover
      omega
    · omega
  by_cases hbig : 9223372036854 < exp.toNat
  · exact ⟨0, hbig, hmax⟩
  by_cases hover : exp * 2 > cfg.capMs
  · refine ⟨1, ?_⟩
    rw [hone, if_pos hover]
    have hover := UInt64.lt_iff_toNat_lt.mp hover
    omega
  · obtain ⟨n, hn⟩ := exists_doubled hcap (exp * 2) (by omega)
    exact ⟨n + 1, by rwa [doubled, if_neg hover]⟩
termination_by 9223372036855 - exp.toNat

/-- Some delay of another configuration is too long to be slept. -/
theorem exists_unsleepable (hc : cfg.Capped) (h : ¬cfg.Sleepable) :
    ∃ attempt prev rng, ¬(cfg.computeDelay attempt prev rng).1 ≤ 9223372036854 := by
  obtain ⟨hcap, hfull⟩ := not_or.mp h
  have hcap : 9223372036854 < cfg.capMs.toNat := UInt64.lt_iff_toNat_lt.mp (UInt64.not_le.mp hcap)
  cases hs : cfg.strategy with
  | fullJitter =>
    have hbase : cfg.baseDelayMs.toNat ≠ 0 := fun heq => hfull ⟨hs, UInt64.toNat_inj.mp heq⟩
    obtain ⟨n, hn, hmax⟩ := exists_doubled hcap cfg.baseDelayMs (Nat.pos_of_ne_zero hbase)
    obtain ⟨rng, hrng⟩ := SplitMix64.exists_boundedNext_succ hmax
    refine ⟨n, 0, rng, ?_⟩
    simp only [computeDelay, hs, Int.toNat_natCast, hrng]
    exact Nat.not_le.mpr hn
  | decorrelatedJitter =>
    have hle := hc.base_le hs
    obtain ⟨hlow, -, hhigh⟩ := upper_mem hle 9223372036855
    have hupper : 9223372036854 < (cfg.upper 9223372036855).toNat := by
      have htriple : (9223372036855 * 3 : UInt64).toNat = 27670116110565 := rfl
      simp only [upper, UInt64.lt_iff_toNat_lt, gt_iff_lt]
      split_ifs <;> omega
    have hspan := UInt64.toNat_sub_of_le _ _ hlow
    have hmax : (cfg.upper 9223372036855 - cfg.baseDelayMs).toNat ≠ 2 ^ 64 - 1 := by
      have := (cfg.upper 9223372036855).toNat_lt
      simp at hhigh
      omega
    obtain ⟨rng, hrng⟩ := SplitMix64.exists_boundedNext_succ hmax
    refine ⟨0, 9223372036855, rng, ?_⟩
    have hsum : cfg.baseDelayMs + (cfg.upper 9223372036855 - cfg.baseDelayMs) = cfg.upper 9223372036855 := by
      rw [UInt64.add_comm, UInt64.sub_add_cancel]
    have hdelay : (cfg.computeDelay 0 9223372036855 rng).1 = cfg.upper 9223372036855 := by
      rw [computeDelay, hs]
      dsimp only
      split
      next hzero => rwa [hzero, UInt64.add_zero] at hsum
      · rwa [hrng]
    rw [hdelay]
    exact Nat.not_le.mpr hupper

end BackoffConfig

/-! ### Sleeping -/

/-- `if delayMs > 0 { time.Sleep(time.Duration(delayMs) * time.Millisecond) }`, in nanoseconds: the conversion and the
product are those of an int64, and a sleep that is not positive returns at once. -/
def sleptNs (delayMs : UInt64) : ℕ := if 0 < delayMs then (delayMs.toInt64 * 1000000).toInt.toNat else 0

theorem sleptNs_eq_iff (d : UInt64) : sleptNs d = d.toNat * 1000000 ↔ d ≤ 9223372036854 := by
  have hunit : (1000000 : Int64).toInt = 1000000 := by decide
  have hconv : d.toInt64.toInt = (d.toNat : ℤ).bmod (2 ^ 64) := BitVec.toInt_eq_toNat_bmod _
  have hprod : (d.toInt64 * 1000000).toInt = ((d.toNat : ℤ) * 1000000).bmod (2 ^ 64) := by
    rw [Int64.toInt_mul, hunit, hconv, Int.bmod_mul_bmod]
  have hhigh : (d.toInt64 * 1000000).toInt < 2 ^ 63 := Int64.toInt_lt _
  rw [sleptNs, UInt64.le_iff_toNat_le, show UInt64.toNat 9223372036854 = 9223372036854 from rfl]
  split
  · constructor
    · intro heq
      omega
    · intro hle
      rw [hprod, Int.bmod_eq_of_le (by omega) (by omega)]
      omega
  next hzero =>
    have hzero := UInt64.le_iff_toNat_le.mp (UInt64.not_lt.mp hzero)
    rw [UInt64.toNat_zero] at hzero
    omega

/-! ### The retry loop -/

inductive RetryError (E : Type) where
  | request (err : E)
  | retriableStatus (code : Int)
  | maxRetriesExceeded (last : Option (RetryError E))

/-- The local variables of `DoWithRetry`, with the delays so far and the nanoseconds slept for each. -/
structure RetryState (R E : Type) where
  prevSleepMs : UInt64
  rng : SplitMix64
  lastErr : Option (RetryError E) := none
  lastResp : Option R := none
  waits : List (UInt64 × ℕ) := []

variable {R E : Type} (cfg : BackoffConfig) (statusCode : R → Int) (send : ℕ → Except E R)
  (shouldRetry : Option (R → Bool))

def RetryState.wait (s : RetryState R E) (attempt : ℕ) : RetryState R E :=
  let d := cfg.computeDelay ((attempt : Int) - 1) s.prevSleepMs s.rng
  { s with prevSleepMs := d.1, rng := d.2, waits := s.waits ++ [(d.1, sleptNs d.1)] }

/-- The loop with `k` turns left; `send attempt` is what `Do` gives at that attempt. -/
def retryLoop : ℕ → ℕ → RetryState R E → Option R × Option (RetryError E) × List (UInt64 × ℕ)
  | 0, _, s =>
    match s.lastResp with
    | some resp => (some resp, s.lastErr, s.waits)
    | none => (none, some (.maxRetriesExceeded s.lastErr), s.waits)
  | k + 1, attempt, s =>
    let s := if 0 < attempt then s.wait cfg attempt else s
    match send attempt with
    | .error err => retryLoop k (attempt + 1) { s with lastErr := some (.request err) }
    | .ok resp =>
      if shouldRetry.any (· resp) then
        retryLoop k (attempt + 1)
          { s with lastResp := some resp, lastErr := some (.retriableStatus (statusCode resp)) }
      else (some resp, none, s.waits)

def doWithRetry (seed : UInt64) : Option R × Option (RetryError E) × List (UInt64 × ℕ) :=
  retryLoop cfg statusCode send shouldRetry (cfg.maxRetries + 1).toNat 0
    { prevSleepMs := cfg.baseDelayMs, rng := ⟨seed⟩ }

/-- The delays of a retry sequence, from attempt `i` and the previous delay `prev` on, in their ranges and slept. -/
def WaitsDocumented : ℕ → UInt64 → List (UInt64 × ℕ) → Prop
  | _, _, [] => True
  | i, prev, (d, ns) :: ds => (cfg.Documented i prev d ∧ ns = d.toNat * 1000000) ∧ WaitsDocumented (i + 1) d ds

variable {cfg}

/-- With the base under the cap a delay keeps to its range and is again at least the base. -/
theorem BackoffConfig.Capped.documented (hc : cfg.Capped) (i : ℕ) {prev : UInt64}
    (hprev : cfg.strategy = .decorrelatedJitter → cfg.baseDelayMs ≤ prev) (rng : SplitMix64) :
    cfg.Documented i prev (cfg.computeDelay i prev rng).1 ∧
      (cfg.strategy = .decorrelatedJitter → cfg.baseDelayMs ≤ (cfg.computeDelay i prev rng).1) := by
  cases hs : cfg.strategy with
  | fullJitter =>
    refine ⟨?_, by simp⟩
    have h := computeDelay_full hs hc i prev rng
    rwa [Documented, hs]
  | decorrelatedJitter =>
    have hle := hc.base_le hs
    obtain ⟨hlow, hhigh⟩ := computeDelay_decorrelated hs hle i prev rng
    obtain ⟨-, hcap, htriple⟩ := upper_mem hle prev
    have hprev := hprev hs
    refine ⟨?_, fun _ => hlow⟩
    rw [Documented, hs]
    simp only [UInt64.le_iff_toNat_le] at *
    omega

/-- One wait adds a delay of its range to the sequence; the first turn adds none. -/
theorem wait_documented (hc : cfg.Capped) (hs : cfg.Sleepable) (attempt : ℕ) (s : RetryState R E)
    (hprev : cfg.strategy = .decorrelatedJitter → cfg.baseDelayMs ≤ s.prevSleepMs) :
    let s' := if 0 < attempt then s.wait cfg attempt else s
    (cfg.strategy = .decorrelatedJitter → cfg.baseDelayMs ≤ s'.prevSleepMs) ∧
      ∃ waited, s'.waits = s.waits ++ waited ∧ ∀ ds, WaitsDocumented cfg attempt s'.prevSleepMs ds →
        WaitsDocumented cfg (attempt - 1) s.prevSleepMs (waited ++ ds) := by
  cases attempt with
  | zero => exact ⟨hprev, [], (List.append_nil _).symm, fun ds hds => hds⟩
  | succ i =>
    obtain ⟨hdoc, hnext⟩ := hc.documented i hprev s.rng
    have hattempt : ((i + 1 : ℕ) : Int) - 1 = i := by omega
    simp only [Nat.succ_pos, if_true, RetryState.wait, hattempt]
    exact ⟨hnext, [_], rfl, fun ds hds => ⟨⟨hdoc, (sleptNs_eq_iff _).mpr (hs.computeDelay_le hc ..)⟩, hds⟩⟩

theorem retryLoop_documented (hc : cfg.Capped) (hs : cfg.Sleepable) (k attempt : ℕ) (s : RetryState R E)
    (hprev : cfg.strategy = .decorrelatedJitter → cfg.baseDelayMs ≤ s.prevSleepMs) :
    ∃ ds, (retryLoop cfg statusCode send shouldRetry k attempt s).2.2 = s.waits ++ ds ∧
      WaitsDocumented cfg (attempt - 1) s.prevSleepMs ds := by
  induction k generalizing attempt s with
  | zero =>
    refine ⟨[], ?_, trivial⟩
    rw [retryLoop]
    split <;> simp
  | succ k ih =>
    obtain ⟨hnext, waited, hwaited, hadd⟩ := wait_documented hc hs attempt s hprev
    rw [retryLoop]
    generalize (if 0 < attempt then s.wait cfg attempt else s) = s' at *
    -- whatever the turn notes of the reply, the rest of the loop goes on from the delay just waited
    have hrest (err : Option (RetryError E)) (resp : Option R) :=
      ih (attempt + 1) { s' with lastErr := err, lastResp := resp } hnext
    have hloop {out : List (UInt64 × ℕ)} (h : ∃ ds, out = s'.waits ++ ds ∧
        WaitsDocumented cfg attempt s'.prevSleepMs ds) :
        ∃ ds, out = s.waits ++ ds ∧ WaitsDocumented cfg (attempt - 1) s.prevSleepMs ds := by
      obtain ⟨ds, rfl, hds⟩ := h
      exact ⟨waited ++ ds, by rw [hwaited, List.append_assoc], hadd ds hds⟩
    split
    · exact hloop (hrest _ _)
    · split
      · exact hloop (hrest _ _)
      · exact hloop ⟨[], (List.append_nil _).symm, trivial⟩

end Sovereign.Network
