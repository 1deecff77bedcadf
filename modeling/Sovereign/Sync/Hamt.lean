import Sovereign.Sync.HamtNode

/-!
# A trie version and its finite-map laws

`HAMT` is the wrapper of `pkg/sync/hamt.go`: a root pointer, the hash seed of this trie and the
number of keys.  `HAMT.get`, `HAMT.set`, `HAMT.delete` and `HAMT.toList` (the visit order of
`ForEach`) hash a key with the trie's own seed and work on the root.

`HAMT.WF` asks for a present, well-routed root.  A trie that only ever receives non-empty lists
keeps it, and reads then behave as those of a finite map: `mem_toList_iff`, `get_set_self`,
`get_set_of_ne`.
-/

namespace Sovereign.Sync

open Lib

/-- `HAMT`: one persistent version of the trie. -/
structure HAMT where
  root : Option (HamtNode EntityID CRDTEntry)
  seed : Seed
  count : ℤ

namespace HAMT

variable (R : Runtime)

def new (seed : Seed) : HAMT := ⟨some .empty, seed, 0⟩

def hashKey (h : HAMT) (key : EntityID) : UInt64 := R.maphash h.seed key

def get (h : HAMT) (entityID : EntityID) : List CRDTEntry :=
  match h.root with
  | none => []
  | some n => n.get entityID (h.hashKey R entityID) 0

/-- The change of the key count in `HAMT.Set`. -/
def countDelta (existing entries : List CRDTEntry) : ℤ :=
  if existing.isEmpty && !entries.isEmpty then 1
  else if !existing.isEmpty && entries.isEmpty then -1
  else 0

/-- `HAMT.Set`.  On the null root nothing is stored. -/
def set (h : HAMT) (entityID : EntityID) (entries : List CRDTEntry) : HAMT where
  root := h.root.bind fun n => n.set entityID (h.hashKey R entityID) entries 0
  seed := h.seed
  count := h.count + countDelta (h.get R entityID) entries

def delete (h : HAMT) (entityID : EntityID) : HAMT :=
  if (h.get R entityID).isEmpty then h
  else
    { root := h.root.bind fun n => n.set entityID (h.hashKey R entityID) [] 0
      seed := h.seed
      count := h.count - 1 }

def toList (h : HAMT) : List (EntityID × List CRDTEntry) :=
  match h.root with
  | none => []
  | some n => n.toList

def keys (h : HAMT) : List EntityID := h.toList.map Prod.fst

/-- A present root that satisfies the routing invariant for the trie's own hash. -/
def WF (h : HAMT) : Prop := ∃ n, h.root = some n ∧ n.WF (R.maphash h.seed) 0

variable {R}

theorem wf_new (seed : Seed) : (new seed).WF R := ⟨_, rfl, HamtNode.wf_empty _⟩

@[simp] theorem toList_new (seed : Seed) : (new seed).toList = [] := HamtNode.toList_empty

variable {h : HAMT} {es : List CRDTEntry} {k : EntityID}

theorem WF.nodup_keys (hw : h.WF R) : h.keys.Nodup := by
  obtain ⟨n, hn, hwf⟩ := hw
  have := hwf.nodup_keys
  rwa [keys, toList, hn]

theorem mem_toList_iff (hw : h.WF R) : (k, es) ∈ h.toList ↔ h.get R k = es ∧ es ≠ [] := by
  obtain ⟨n, hn, hwf⟩ := hw
  rw [toList, get, hn]
  constructor
  · exact fun hm => ⟨HamtNode.get_of_mem hwf hm, hwf.entries_ne_nil _ hm⟩
  · rintro ⟨hget, hne⟩
    by_cases hk : k ∈ n.keys
    · obtain ⟨⟨k', es'⟩, hm, rfl⟩ := List.mem_map.mp hk
      have hget' : n.get k' (h.hashKey R k') 0 = es' := HamtNode.get_of_mem hwf hm
      have hes : es' = es := hget'.symm.trans hget
      exact hes ▸ hm
    · exact absurd ((HamtNode.get_of_not_mem hwf hk).symm.trans hget).symm hne

theorem mem_keys_iff (hw : h.WF R) : k ∈ h.keys ↔ h.get R k ≠ [] := by
  constructor
  · intro hk
    obtain ⟨⟨k', es⟩, hm, rfl⟩ := List.mem_map.mp hk
    obtain ⟨hget, hne⟩ := (mem_toList_iff hw).mp hm
    exact hget ▸ hne
  · intro hne
    exact List.mem_map.mpr ⟨(k, h.get R k), (mem_toList_iff hw).mpr ⟨rfl, hne⟩, rfl⟩

theorem get_new (seed : Seed) (k : EntityID) : (new seed).get R k = [] := by
  by_contra hne
  have := (mem_toList_iff (wf_new (R := R) seed)).mpr ⟨rfl, hne⟩
  simp at this

/-- Storing a non-empty list keeps the trie well-formed and replaces the pair of its key. -/
theorem set_spec (hw : h.WF R) (k : EntityID) (hes : es ≠ []) :
    (h.set R k es).WF R ∧
      (h.set R k es).toList.Perm ((k, es) :: h.toList.filter fun p => p.1 ≠ k) := by
  obtain ⟨n, hn, hwf⟩ := hw
  obtain ⟨n', hset, hwf', hperm⟩ := HamtNode.set_spec hwf k hes
  have hroot : (h.set R k es).root = some n' := by
    simp only [set, hn, Option.bind_some]
    exact hset
  exact ⟨⟨n', hroot, hwf'⟩, by simpa only [toList, hroot, hn] using hperm⟩

theorem wf_set (hw : h.WF R) (k : EntityID) (hes : es ≠ []) : (h.set R k es).WF R := (set_spec hw k hes).1

theorem get_set_self (hw : h.WF R) (k : EntityID) (hes : es ≠ []) : (h.set R k es).get R k = es := by
  obtain ⟨hw', hperm⟩ := set_spec hw k hes
  exact ((mem_toList_iff hw').mp (hperm.mem_iff.mpr List.mem_cons_self)).1

theorem get_set_of_ne (hw : h.WF R) {k' : EntityID} (hk : k' ≠ k) (hes : es ≠ []) : (h.set R k es).get R k' = h.get R k' := by
  obtain ⟨hw', hperm⟩ := set_spec hw k hes
  have hiff : ∀ fs, (k', fs) ∈ (h.set R k es).toList ↔ (k', fs) ∈ h.toList := by
    intro fs
    rw [hperm.mem_iff]
    simp [hk]
  -- compare the two readings through the visited pairs
  by_cases h0 : h.get R k' = []
  · by_contra hne
    have hne' : (h.set R k es).get R k' ≠ [] := fun e => hne (e.trans h0.symm)
    have := (mem_toList_iff hw).mp ((hiff _).mp ((mem_toList_iff hw').mpr ⟨rfl, hne'⟩))
    exact this.2 (this.1.symm.trans h0)
  · exact ((mem_toList_iff hw').mp ((hiff _).mpr ((mem_toList_iff hw).mpr ⟨rfl, h0⟩))).1

end HAMT

end Sovereign.Sync
