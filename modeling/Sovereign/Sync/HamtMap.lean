import Sovereign.Lib.Run
import Sovereign.Sync.Convergence
import Sovereign.Sync.HamtArena
import Sovereign.Sync.HamtErase

/-!
# The versions of a trie refine a finite map

All versions of a trie live in one arena; a version is a root pointer with the seed and a count.  A history is a list
of updates, each made to any version that exists, and each adds one version.

* `HamtVersion.set`, `HamtVersion.delete`, … — the methods of `HAMT` on pointers;
* `StandsFor` — the trie value behind a version;
* `Agrees` — `Get`, `Len` and `ForEach` of a version, read in an arena, are those of a finite map.

`versions_agree_iff`: after every history, for every hash function, **every** version agrees with the map of the same
updates **iff** no non-empty list was set on a version with the null root.  A version has the null root when its last
key was removed; `refilled_version_is_lost` is such a history.
-/

namespace Sovereign.Sync

open Lib

/-- `HAMT`, the wrapper in the arena. -/
structure HamtVersion where
  root : NodePtr
  seed : Seed
  count : ℤ

namespace HamtVersion

variable (R : Runtime) (a : HamtArena EntityID CRDTEntry) (v : HamtVersion)

def get (entityID : EntityID) : List CRDTEntry :=
  a.get entityID (R.maphash v.seed entityID) hamtMaxDepth v.root

def set (entityID : EntityID) (entries : List CRDTEntry) : Option (HamtArena EntityID CRDTEntry × HamtVersion) :=
  (a.set entityID (R.maphash v.seed entityID) entries hamtMaxDepth v.root).map fun (a', newRoot) =>
    (a', ⟨newRoot, v.seed, v.count + HAMT.countDelta (v.get R a entityID) entries⟩)

def delete (entityID : EntityID) : Option (HamtArena EntityID CRDTEntry × HamtVersion) :=
  if (v.get R a entityID).isEmpty then some (a, v)
  else
    (a.set entityID (R.maphash v.seed entityID) [] hamtMaxDepth v.root).map fun (a', newRoot) =>
      (a', ⟨newRoot, v.seed, v.count - 1⟩)

def forEach {σ : Type} (fn : σ → EntityID → List CRDTEntry → σ × Bool) (s : σ) : Option (σ × Bool) :=
  a.forEach fn hamtMaxDepth v.root s

end HamtVersion

/-! ### Histories -/

/-- An update of an existing version, by its number. -/
inductive MapOp where
  | set (version : ℕ) (entityID : EntityID) (entries : List CRDTEntry)
  | delete (version : ℕ) (entityID : EntityID)

namespace MapOp

/-- The version an update starts from. -/
def version : MapOp → ℕ
  | .set v _ _ => v
  | .delete v _ => v

def onVersion (R : Runtime) (a : HamtArena EntityID CRDTEntry) (v : HamtVersion) :
    MapOp → Option (HamtArena EntityID CRDTEntry × HamtVersion)
  | .set _ k es => v.set R a k es
  | .delete _ k => v.delete R a k

def onTrie (R : Runtime) (h : HAMT) : MapOp → HAMT
  | .set _ k es => h.set R k es
  | .delete _ k => h.delete R k

def onMap (m : EntityMap) : MapOp → EntityMap
  | .set _ k es => m.set k es
  | .delete _ k => m.delete k

end MapOp

structure HamtVersions where
  arena : HamtArena EntityID CRDTEntry
  versions : List HamtVersion

def HamtVersions.new (seed : Seed) : HamtVersions := ⟨[⟨0, [], []⟩], [⟨1, seed, 0⟩]⟩

def versionStep (R : Runtime) (s : HamtVersions) (op : MapOp) : Option (HamtVersions × List Empty) :=
  match s.versions[op.version]? with
  | none => none
  | some v => (op.onVersion R s.arena v).map fun (a', v') => (⟨a', s.versions ++ [v']⟩, [])

def mapStep (ms : List EntityMap) (op : MapOp) : Option (List EntityMap × List Empty) :=
  ms[op.version]?.map fun m => (ms ++ [op.onMap m], [])

/-- A non-empty list is set on a version that has a root. -/
def Storable (s : HamtVersions) : MapOp → Prop
  | .set version _ entries => entries = [] ∨ s.versions[version]?.all (fun v => v.root != 0) = true
  | .delete _ _ => True

instance (s : HamtVersions) : ∀ op, Decidable (Storable s op)
  | .set version _ entries =>
    inferInstanceAs (Decidable (entries = [] ∨ s.versions[version]?.all (fun v => v.root != 0) = true))
  | .delete _ _ => .isTrue trivial

/-- `Get`, `Len` and `ForEach` of a version are those of a map; the visit has each key once. -/
structure Agrees (R : Runtime) (a : HamtArena EntityID CRDTEntry) (v : HamtVersion) (m : EntityMap) : Prop where
  get : ∀ k, v.get R a k = m.read k
  len : v.count = m.keys.card
  forEach : ∃ order : List (EntityID × List CRDTEntry), (order.map Prod.fst).Nodup ∧
    (∀ k es, (k, es) ∈ order ↔ (m.lookup k).map Subtype.val = some es) ∧
    ∀ (σ : Type) (fn : σ → EntityID → List CRDTEntry → σ × Bool) (s : σ),
      v.forEach a fn s = some (visit fn s order)

/-! ### The trie behind a version -/

/-- Behind the version stands a trie that routes by its own hash. -/
structure StandsFor (R : Runtime) (a : HamtArena EntityID CRDTEntry) (v : HamtVersion) (h : HAMT) : Prop where
  seed : v.seed = h.seed
  count : v.count = h.count
  root : a.RepRoot v.root h.root
  sound : h.Sound R

namespace StandsFor

variable {R : Runtime} {a a' : HamtArena EntityID CRDTEntry} {v : HamtVersion} {h : HAMT} {m : EntityMap}

theorem extend (hv : StandsFor R a v h) (hgrow : a <+: a') : StandsFor R a' v h :=
  { hv with root := hv.root.extend hgrow }

theorem root_ne_zero (hv : StandsFor R a v h) : v.root ≠ 0 ↔ h.root.isSome := by
  have hroot := hv.root
  cases hh : h.root with
  | none =>
    rw [hh] at hroot
    have hnull : v.root = 0 := hroot
    simpa using hnull
  | some n =>
    rw [hh] at hroot
    simpa using HamtArena.Rep.ne_zero hroot

theorem get (hv : StandsFor R a v h) (k : EntityID) : v.get R a k = h.get R k := by
  have hroot := hv.root
  rw [HamtVersion.get, HAMT.get, HAMT.hashKey, ← hv.seed]
  cases hh : h.root with
  | none =>
    rw [hh] at hroot
    rw [show v.root = 0 from hroot]
    rfl
  | some n =>
    rw [hh] at hroot
    exact HamtArena.get_eq k _ (hv.sound n hh) hroot

theorem forEach (hv : StandsFor R a v h) {σ : Type} (fn : σ → EntityID → List CRDTEntry → σ × Bool) (s : σ) :
    v.forEach a fn s = some (visit fn s h.toList) := by
  have hroot := hv.root
  rw [HamtVersion.forEach, HAMT.toList]
  cases hh : h.root with
  | none =>
    rw [hh] at hroot
    rw [show v.root = 0 from hroot]
    rfl
  | some n =>
    rw [hh] at hroot
    exact HamtArena.forEach_eq fn (hv.sound n hh) hroot s

theorem set_root (hv : StandsFor R a v h) (k : EntityID) (es : List CRDTEntry) :
    ∃ a' p', a.set k (R.maphash v.seed k) es hamtMaxDepth v.root = some (a', p') ∧ a <+: a' ∧
      a'.RepRoot p' (h.root.bind fun n => n.set k (h.hashKey R k) es 0) := by
  have hroot := hv.root
  rw [HAMT.hashKey, ← hv.seed]
  cases hh : h.root with
  | none =>
    rw [hh] at hroot
    rw [show v.root = 0 from hroot]
    exact ⟨a, 0, rfl, List.prefix_rfl, rfl⟩
  | some n =>
    rw [hh] at hroot
    exact HamtArena.set_refines k _ es (hv.sound n hh) hroot

/-- **Every update goes through**, writes fresh nodes only, and is the update of the trie. -/
theorem onVersion (hv : StandsFor R a v h) (op : MapOp) :
    ∃ a' v', op.onVersion R a v = some (a', v') ∧ a <+: a' ∧ StandsFor R a' v' (op.onTrie R h) := by
  cases op with
  | set _ k es =>
    obtain ⟨a', p', hset, hgrow, hrep⟩ := hv.set_root k es
    refine ⟨a', ⟨p', v.seed, v.count + HAMT.countDelta (v.get R a k) es⟩, ?_, hgrow, hv.seed, ?_, hrep,
      hv.sound.set k es⟩
    · rw [MapOp.onVersion, HamtVersion.set, hset]
      rfl
    show v.count + HAMT.countDelta (v.get R a k) es = h.count + HAMT.countDelta (h.get R k) es
    rw [hv.count, hv.get]
  | delete _ k =>
    rw [MapOp.onVersion, MapOp.onTrie, HamtVersion.delete, HAMT.delete, hv.get]
    split
    · exact ⟨a, v, rfl, List.prefix_rfl, hv⟩
    · obtain ⟨a', p', hset, hgrow, hrep⟩ := hv.set_root k []
      refine ⟨a', ⟨p', v.seed, v.count - 1⟩, by rw [hset]; rfl, hgrow, hv.seed, ?_, hrep, hv.sound.set k []⟩
      show v.count - 1 = h.count - 1
      rw [hv.count]

/-- The observations of a version are those of its trie. -/
theorem agrees_iff (hv : StandsFor R a v h) : Agrees R a v m ↔ h.ReadsAs R m := by
  constructor
  · exact fun hm => ⟨fun k => (hv.get k).symm.trans (hm.get k), hv.count.symm.trans hm.len⟩
  · intro hr
    obtain ⟨hnodup, hmem⟩ := hr.toList hv.sound
    exact ⟨fun k => (hv.get k).trans (hr.get k), hv.count.trans hr.count, h.toList, hnodup, hmem,
      fun _ fn s => hv.forEach fn s⟩

end StandsFor

/-! ### One step -/

/-- Every version stands for a trie. -/
def HamtVersions.Valid (R : Runtime) (s : HamtVersions) : Prop := ∀ v ∈ s.versions, ∃ h, StandsFor R s.arena v h

theorem HamtVersions.valid_new (R : Runtime) (seed : Seed) : (new seed).Valid R := by
  intro v hv
  cases List.mem_singleton.mp hv
  exact ⟨HAMT.new seed, rfl, rfl, HamtArena.rep_mk.mpr ⟨[], rfl, .nil⟩, HAMT.sound_new seed⟩

variable {s : HamtVersions} {R : Runtime} {ms : List EntityMap}
  {a' : HamtArena EntityID CRDTEntry} {v : HamtVersion} {ms' : List EntityMap} {out : List Empty}

/-- **An older version returns what it returned.** -/
theorem HamtVersions.Valid.agrees_extend (hs : s.Valid R) (hgrow : s.arena <+: a') (hv : v ∈ s.versions)
    (m : EntityMap) : Agrees R a' v m ↔ Agrees R s.arena v m := by
  obtain ⟨h, hh⟩ := hs v hv
  rw [hh.agrees_iff, (hh.extend hgrow).agrees_iff]

theorem HamtVersions.Valid.forall₂_extend (hs : s.Valid R) (hgrow : s.arena <+: a') :
    List.Forall₂ (Agrees R a') s.versions ms ↔ List.Forall₂ (Agrees R s.arena) s.versions ms := by
  constructor
  · intro hall
    refine ((List.forall₂_and_left _ _).mpr ⟨fun _ hv => hv, hall⟩).imp fun v m hv => ?_
    exact (hs.agrees_extend hgrow hv.1 m).mp hv.2
  · intro hall
    refine ((List.forall₂_and_left _ _).mpr ⟨fun _ hv => hv, hall⟩).imp fun v m hv => ?_
    exact (hs.agrees_extend hgrow hv.1 m).mpr hv.2

theorem forall₂_concat_iff {α β : Type} {r : α → β → Prop} {xs : List α} {ys : List β} {x : α} {y : β} :
    List.Forall₂ r (xs ++ [x]) (ys ++ [y]) ↔ List.Forall₂ r xs ys ∧ r x y := by
  rw [← List.forall₂_reverse_iff, List.reverse_concat, List.reverse_concat, List.forall₂_cons,
    List.forall₂_reverse_iff, and_comm]

/-- The new version agrees with the new map **iff** the update could be stored. -/
theorem agrees_onTrie_iff {h : HAMT} {m : EntityMap} {op : MapOp}
    (hv : s.versions[op.version]? = some v) (hh : StandsFor R s.arena v h) (hr : h.ReadsAs R m) :
    (op.onTrie R h).ReadsAs R (op.onMap m) ↔ Storable s op := by
  cases op with
  | delete i k => exact iff_of_true (hr.delete hh.sound) trivial
  | set i k es =>
    have hv : s.versions[i]? = some v := hv
    have hstorable : Storable s (.set i k es) ↔ es = [] ∨ h.root.isSome := by
      rw [← hh.root_ne_zero, Storable, hv]
      simp
    rw [hstorable]
    constructor
    · intro hnew
      by_contra hnot
      obtain ⟨hes, hroot⟩ := not_or.mp hnot
      -- on the null root the key reads as absent
      have hget : (h.set R k es).get R k = [] := HAMT.get_set_of_null (Option.not_isSome_iff_eq_none.mp hroot)
      have hread : (h.set R k es).get R k = (m.set k es).read k := hnew.get k
      rw [EntityMap.read_set, if_pos rfl] at hread
      exact hes (hread.symm.trans hget)
    · exact fun hroot => hr.set hh.sound hroot

/-- One update on both sides. -/
theorem versionStep_agrees {op : MapOp}
    (hs : s.Valid R) (hlen : s.versions.length = ms.length) (hmap : mapStep ms op = some (ms', out)) :
    ∃ s', versionStep R s op = some (s', out) ∧ s'.Valid R ∧ s'.versions.length = ms'.length ∧
      (List.Forall₂ (Agrees R s'.arena) s'.versions ms' ↔
        List.Forall₂ (Agrees R s.arena) s.versions ms ∧ Storable s op) := by
  obtain ⟨m, hm, heq⟩ := Option.map_eq_some_iff.mp hmap
  cases heq
  obtain ⟨hlt, hmget⟩ := List.getElem?_eq_some_iff.mp hm
  have hlt' : op.version < s.versions.length := hlen ▸ hlt
  have hv : s.versions[op.version]? = some s.versions[op.version] := List.getElem?_eq_getElem hlt'
  set v := s.versions[op.version] with hvdef
  obtain ⟨h, hh⟩ := hs v (List.getElem_mem hlt')
  obtain ⟨a', v', hop, hgrow, hh'⟩ := hh.onVersion op
  refine ⟨⟨a', s.versions ++ [v']⟩, by rw [versionStep, hv]; simp only [hop, Option.map_some], ?_, by simp [hlen], ?_⟩
  · intro w hw
    rcases List.mem_append.mp hw with hw | hw
    · obtain ⟨g, hg⟩ := hs w hw
      exact ⟨g, hg.extend hgrow⟩
    · cases List.mem_singleton.mp hw
      exact ⟨_, hh'⟩
  · rw [forall₂_concat_iff, hs.forall₂_extend hgrow]
    refine and_congr_right fun hall => ?_
    have hagree : Agrees R s.arena v m := by
      have hget := hall.get hlt' hlt
      rw [List.get_eq_getElem, List.get_eq_getElem, hmget] at hget
      exact hget
    rw [hh'.agrees_iff]
    exact agrees_onTrie_iff hv hh (hh.agrees_iff.mp hagree)

/-! ### Whole histories -/

theorem run_agrees {ops : List MapOp}
    (hs : s.Valid R) (hlen : s.versions.length = ms.length) (hmap : run mapStep ms ops = some (ms', out)) :
    ∃ s', run (versionStep R) s ops = some (s', out) ∧
      (List.Forall₂ (Agrees R s'.arena) s'.versions ms' ↔
        List.Forall₂ (Agrees R s.arena) s.versions ms ∧ Meets (versionStep R) Storable s ops) := by
  induction ops generalizing s ms out with
  | nil =>
    cases hmap
    exact ⟨s, rfl, (and_iff_left trivial).symm⟩
  | cons op ops ih =>
    obtain ⟨ms₁, o, rest, hop, hrest, rfl⟩ := run_cons_some hmap
    obtain ⟨s₁, hstep, hs₁, hlen₁, hiff₁⟩ := versionStep_agrees hs hlen hop
    obtain ⟨s', hrun, hiff⟩ := ih hs₁ hlen₁ hrest
    refine ⟨s', run_cons hstep hrun, ?_⟩
    rw [hiff, hiff₁, Meets, hstep, and_assoc]
    simp

/-- **The trie refines a finite map, up to refilling an emptied version.**  For every hash function and every history
of `Set` and `Delete` on existing versions: the updates go through, and `Get`, `Len` and `ForEach` on all versions, read
in the final arena, agree with the maps of the same updates iff every non-empty list was set on a version with a
root. -/
theorem versions_agree_iff (R : Runtime) (seed : Seed) (ops : List MapOp) {ms : List EntityMap} {out : List Empty}
    (hmap : run mapStep [∅] ops = some (ms, out)) :
    ∃ s, run (versionStep R) (HamtVersions.new seed) ops = some (s, out) ∧
      (List.Forall₂ (Agrees R s.arena) s.versions ms ↔
        Meets (versionStep R) Storable (HamtVersions.new seed) ops) := by
  obtain ⟨s, hrun, hiff⟩ := run_agrees (HamtVersions.valid_new R seed) rfl hmap
  have hnew : List.Forall₂ (Agrees R (HamtVersions.new seed).arena) (HamtVersions.new seed).versions [∅] := by
    have hstands : StandsFor R (HamtVersions.new seed).arena ⟨1, seed, 0⟩ (HAMT.new seed) :=
      ⟨rfl, rfl, HamtArena.rep_mk.mpr ⟨[], rfl, .nil⟩, HAMT.sound_new seed⟩
    exact .cons (hstands.agrees_iff.mpr (HAMT.readsAs_new seed)) .nil
  exact ⟨s, hrun, hiff.trans (and_iff_right hnew)⟩

/-- A version is emptied, and the one before it gets a second key. -/
theorem versions_agree_beside_an_emptied_one :
    ∃ ms s, run mapStep [∅] [.set 0 [7] [sampleEntry 1 9 1], .delete 1 [7], .set 1 [8] [sampleEntry 2 5 0]] =
        some (ms, []) ∧
      run (versionStep .sample) (HamtVersions.new 0)
        [.set 0 [7] [sampleEntry 1 9 1], .delete 1 [7], .set 1 [8] [sampleEntry 2 5 0]] = some (s, []) ∧
      List.Forall₂ (Agrees .sample s.arena) s.versions ms := by
  obtain ⟨s, hrun, hiff⟩ := versions_agree_iff .sample 0
    [.set 0 [7] [sampleEntry 1 9 1], .delete 1 [7], .set 1 [8] [sampleEntry 2 5 0]] rfl
  exact ⟨_, s, rfl, hrun, hiff.mpr (by decide +kernel)⟩

/-- **The last key of a version is removed and set again.**  The map has the key; the version reads nothing under it
and counts one key. -/
theorem refilled_version_is_lost :
    ((run (versionStep .sample) (HamtVersions.new 0)
        [.set 0 [7] [sampleEntry 1 9 1], .delete 1 [7], .set 2 [7] [sampleEntry 1 9 1]]).map fun r =>
      r.1.versions[3]?.map fun v => (v.get .sample r.1.arena [7], v.count)) = some (some ([], 1)) ∧
    ((run mapStep [∅] [.set 0 [7] [sampleEntry 1 9 1], .delete 1 [7], .set 2 [7] [sampleEntry 1 9 1]]).map fun r =>
      r.1[3]?.map fun m => (m.read [7], m.keys.card)) = some (some ([sampleEntry 1 9 1], 1)) := by
  constructor
  · decide +kernel
  · decide +kernel

end Sovereign.Sync
