import Sovereign.Sync.Hamt

/-!
# Removing keys, and the finite map of a trie

`HAMT.Set` with the empty list and `HAMT.Delete` remove a key.

* `HamtNode.erase_spec` — the rest keeps its visit order; a node left without keys is given up, up to the root;
* `EntityMap` — the finite map a trie stands for: no key has the empty list;
* `HAMT.ReadsAs` — `Get` reads the map and `Len` is its size.  `ReadsAs.delete` and `ReadsAs.set` keep it, the second
  with one exception: a trie whose last key was removed has the null root, and there `Set` stores nothing
  (`get_set_of_null`) while the key is counted.
-/

namespace Sovereign.Sync

open Lib Lib.Bitmap

/-! ### Removing a key -/

namespace HamtNode

variable {κ β : Type} [DecidableEq κ] {hash : κ → UInt64} {depth : ℕ} {key : κ}

def pairs (p : Option (HamtNode κ β)) : List (κ × List β) := p.elim [] toList

theorem updateLeafEntry_nil_spec {ls : List (HamtLeaf κ β)} (h : WF hash depth (.mk 0 [] ls)) (hne : ls ≠ [])
    (hk : ls.any (fun l => l.entityID == key) = true) :
    pairs (updateLeafEntry ls (ls.findIdx fun l => l.entityID == key) key (hash key) []) =
        (mk 0 [] ls).toList.filter (fun p => p.1 ≠ key) ∧
      ∀ n ∈ updateLeafEntry ls (ls.findIdx fun l => l.entityID == key) key (hash key) [], WF hash depth n := by
  cases h with
  | branch => exact absurd rfl hne
  | leaves deep nonempty stored distinct alone =>
    obtain ⟨before, l, after, rfl, hidx, rfl, hothers⟩ := exists_leaf distinct hk
    have herase : (before ++ l :: after).eraseIdx before.length = before ++ after := by
      rw [List.eraseIdx_append_of_length_le le_rfl, Nat.sub_self]
      rfl
    have hfilter : (mk 0 [] (before ++ l :: after)).toList.filter (fun p => p.1 ≠ l.entityID) =
        (before ++ after).map fun m => (m.entityID, m.entries) := by
      rw [toList_leaves nonempty, List.map_append, List.map_cons, List.filter_append,
        List.filter_cons_of_neg (by simp), ← List.filter_append, ← List.map_append]
      refine filter_of_absent fun p hp => ?_
      obtain ⟨m, hm, rfl⟩ := List.mem_map.mp hp
      exact hothers m hm
    rw [hidx, hfilter, updateLeafEntry, if_pos List.isEmpty_nil, herase]
    split
    · next hone =>
      have hnil : before ++ after = [] := List.eq_nil_of_length_eq_zero (by
        rw [List.length_append, List.length_cons] at hone
        rw [List.length_append]
        omega)
      rw [hnil]
      exact ⟨rfl, fun n hn => by cases hn⟩
    · next hmany =>
      have hnonempty : before ++ after ≠ [] := fun hnil => hmany (by simp_all)
      refine ⟨show toList _ = _ from toList_leaves hnonempty, fun n hn => ?_⟩
      cases hn
      have hsub : (before ++ after).Sublist (before ++ l :: after) :=
        (List.sublist_cons_self _ _).append_left _
      exact WF.leaves deep hnonempty (fun m hm => stored m (hsub.subset hm)) ((hsub.map _).nodup distinct)
        fun habove => absurd (alone habove) hmany

/-- **`set` with the empty list** removes its key and leaves the order of the rest. -/
theorem erase_spec {n : HamtNode κ β} (h : WF hash depth n) (key : κ) :
    pairs (n.set key (hash key) [] depth) = n.toList.filter (fun p => p.1 ≠ key) ∧
      ∀ n' ∈ n.set key (hash key) [] depth, WF hash depth n' := by
  induction h with
  | @leaves depth ls deep nonempty stored distinct alone =>
    have hwf : WF hash depth (.mk 0 [] ls) := WF.leaves deep nonempty stored distinct alone
    cases ls with
    | nil => exact absurd rfl nonempty
    | cons l ls =>
      rw [set]
      split
      · next hany => exact updateLeafEntry_nil_spec hwf nonempty hany
      · next hany =>
        rw [if_pos List.isEmpty_nil]
        refine ⟨(filter_of_absent fun p hp heq => hany ?_).symm, fun n' hn' => ?_⟩
        · have hp : p ∈ (mk 0 [] (l :: ls)).toList := hp
          rw [toList_leaves nonempty] at hp
          obtain ⟨m, hm, rfl⟩ := List.mem_map.mp hp
          exact List.any_eq_true.mpr ⟨m, hm, by simpa using heq⟩
        · cases hn'
          exact hwf
  | @branch depth bitmap children above dense child routed ih =>
    have hlt := chunk_lt (hash key) depth
    rw [set]
    split
    · next hbit =>
      obtain ⟨c, hc, hmem, hsplit⟩ := slots_split dense hlt hbit
      have hothers := absent_of_other_slot dense routed hsplit
      obtain ⟨hpairs, hwf⟩ := ih _ hmem
      -- what is left of the branch: the other slots, and of the child what is left of it
      have hrest : (mk bitmap children []).toList.filter (fun p => p.1 ≠ key) =
          (((lower bitmap (chunk (hash key) depth)).zip
              (children.take (rank bitmap (chunk (hash key) depth)))).flatMap fun s => s.2.toList) ++
            (pairs (c.set key (hash key) [] (depth + 1)) ++
              (((upper bitmap (chunk (hash key) depth)).zip
                (children.drop (rank bitmap (chunk (hash key) depth) + 1))).flatMap fun s => s.2.toList)) := by
        rw [toList_branch_slots dense, hsplit, List.flatMap_append, List.flatMap_cons, List.filter_append,
          List.filter_append, filter_slots fun s hs => hothers s (List.mem_append_left _ hs),
          filter_slots fun s hs => hothers s (List.mem_append_right _ hs), hpairs]
      rw [hrest, setAt_eq _ _ _ _ _ _ hc]
      cases hset : c.set key (hash key) [] (depth + 1) with
      | none =>
        have hremove := slots_remove dense hlt
        dsimp only
        split
        · next hzero =>
          -- the child was the only one
          have hbits := bits_clear bitmap hlt
          rw [hzero, bits_zero] at hbits
          obtain ⟨hlow, hup⟩ := List.append_eq_nil_iff.mp hbits.symm
          rw [hlow, hup]
          exact ⟨rfl, fun n hn => by cases hn⟩
        · have hlen : (children.take (rank bitmap (chunk (hash key) depth)) ++
              children.drop (rank bitmap (chunk (hash key) depth) + 1)).length =
                popcount (bitmap &&& ~~~bitAt (chunk (hash key) depth)) := by
            have hsum := congrArg List.length (bits_of_hasBit hlt hbit)
            have hpos := (List.getElem?_eq_some_iff.mp hc).1
            rw [← popcount, ← dense] at hsum
            rw [popcount, bits_clear bitmap hlt]
            simp only [List.length_append, List.length_cons, List.length_take, List.length_drop] at hsum ⊢
            omega
          have hin : ∀ s ∈ slots (bitmap &&& ~~~bitAt (chunk (hash key) depth))
              (children.take (rank bitmap (chunk (hash key) depth)) ++
                children.drop (rank bitmap (chunk (hash key) depth) + 1)), s ∈ slots bitmap children := by
            intro s hs
            rw [hremove] at hs
            rw [hsplit]
            rcases List.mem_append.mp hs with hs | hs
            · exact List.mem_append_left _ hs
            · exact List.mem_append_right _ (List.mem_cons_of_mem _ hs)
          refine ⟨?_, fun n' hn' => ?_⟩
          · show toList _ = _
            rw [toList_branch_slots hlen, hremove, List.flatMap_append]
            rfl
          · cases hn'
            exact WF.branch above hlen (fun s hs => child s (hin s hs)) fun s hs => routed s (hin s hs)
      | some c' =>
        rw [hset] at hwf hpairs
        -- the keys of the new child are keys of the old one
        have hkeys : ∀ k ∈ c'.keys, chunk (hash k) depth = chunk (hash key) depth := by
          intro k hk
          obtain ⟨p, hp, rfl⟩ := List.mem_map.mp hk
          have hp : p ∈ pairs (some c') := hp
          rw [hpairs] at hp
          exact routed _ hmem p.1 (List.mem_map_of_mem (List.mem_filter.mp hp).1)
        obtain ⟨hlen, hwf'⟩ := WF.replaceChild above dense child routed hlt hbit hc (hwf c' rfl) hkeys
        refine ⟨?_, fun n' hn' => ?_⟩
        · show toList _ = _
          rw [toList_branch_slots hlen, slots_replace dense hlt hbit c', List.flatMap_append, List.flatMap_cons]
          rfl
        · cases hn'
          exact hwf'
    · next hbit =>
      rw [if_pos List.isEmpty_nil]
      refine ⟨(filter_of_absent fun p hp heq => hbit ?_).symm, fun n' hn' => ?_⟩
      · obtain ⟨s, hs, hps⟩ := (mem_toList_branch dense).mp hp
        have hslot := routed s hs p.1 (List.mem_map_of_mem hps)
        rw [← heq, hslot] at hlt ⊢
        exact hasBit_of_mem_slots dense hs hlt
      · cases hn'
        exact WF.branch above dense child routed

end HamtNode

/-! ### The finite map -/

/-- What a trie stands for. -/
abbrev EntityMap := Finmap fun _ : EntityID => {es : List CRDTEntry // es ≠ []}

namespace EntityMap

def read (m : EntityMap) (k : EntityID) : List CRDTEntry := ((m.lookup k).map Subtype.val).getD []

def delete (m : EntityMap) (k : EntityID) : EntityMap := m.erase k

/-- Map a key to a list of entries; the empty list removes the key. -/
def set (m : EntityMap) (k : EntityID) (es : List CRDTEntry) : EntityMap :=
  if h : es = [] then m.delete k else m.insert k ⟨es, h⟩

variable {m : EntityMap} {k k' : EntityID} {es : List CRDTEntry}

theorem lookup_eq_some_iff : (m.lookup k).map Subtype.val = some es ↔ m.read k = es ∧ es ≠ [] := by
  rw [read]
  cases m.lookup k with
  | none => simp
  | some b =>
    simp only [Option.map_some, Option.some.injEq, Option.getD_some]
    exact ⟨fun h => ⟨h, h ▸ b.2⟩, fun h => h.1⟩

theorem read_eq_nil_iff : m.read k = [] ↔ k ∉ m := by
  rw [read, ← Finmap.lookup_eq_none]
  cases m.lookup k with
  | none => simp
  | some b => simpa using b.2

theorem read_delete : (m.delete k).read k' = if k' = k then [] else m.read k' := by
  rw [read, delete]
  split
  · next h => rw [h, Finmap.lookup_erase]; rfl
  · next h => rw [Finmap.lookup_erase_ne h, read]

theorem read_set : (m.set k es).read k' = if k' = k then es else m.read k' := by
  rw [set]
  split
  · next h => rw [read_delete, h]
  · next h =>
    rw [read]
    split
    · next hk => rw [hk, Finmap.lookup_insert]; rfl
    · next hk => rw [Finmap.lookup_insert_of_ne m hk, read]

theorem card_delete : ((m.delete k).keys.card : ℤ) = m.keys.card - if m.read k = [] then 0 else 1 := by
  rw [delete, Finmap.keys_erase]
  split
  · next h =>
    rw [Finset.erase_eq_of_notMem fun hk => read_eq_nil_iff.mp h (Finmap.mem_keys.mp hk), sub_zero]
  · next h =>
    have hk : k ∈ m.keys := Finmap.mem_keys.mpr (not_not.mp (mt read_eq_nil_iff.mpr h))
    rw [Finset.card_erase_of_mem hk, Nat.cast_pred (Finset.card_pos.mpr ⟨k, hk⟩)]

theorem card_set : ((m.set k es).keys.card : ℤ) = m.keys.card + HAMT.countDelta (m.read k) es := by
  rw [set]
  split
  · next h =>
    rw [card_delete, h, HAMT.countDelta]
    by_cases hk : m.read k = [] <;> simp [hk, Int.sub_eq_add_neg]
  · next h =>
    have hkeys : (m.insert k ⟨es, h⟩).keys = insert k m.keys := by
      ext x
      rw [Finmap.mem_keys, Finmap.mem_insert, Finset.mem_insert, Finmap.mem_keys]
    rw [hkeys, HAMT.countDelta]
    by_cases hk : m.read k = []
    · rw [Finset.card_insert_of_notMem fun hin => read_eq_nil_iff.mp hk (Finmap.mem_keys.mp hin)]
      simp [hk, h]
    · rw [Finset.insert_eq_of_mem (Finmap.mem_keys.mpr (not_not.mp (mt read_eq_nil_iff.mpr hk)))]
      simp [hk, h]

end EntityMap

/-! ### Tries that stand for a map -/

namespace HAMT

variable {R : Runtime} {h h' : HAMT} {m : EntityMap} {k k' : EntityID} {es : List CRDTEntry}

variable (R) in
def Sound (h : HAMT) : Prop := ∀ n ∈ h.root, n.WF (R.maphash h.seed) 0

theorem sound_new (seed : Seed) : (new seed).Sound R := by
  intro n hn
  cases hn
  exact HamtNode.wf_empty _

theorem Sound.wf (hs : h.Sound R) (hroot : h.root.isSome) : h.WF R := by
  obtain ⟨n, hn⟩ := Option.isSome_iff_exists.mp hroot
  exact ⟨n, hn, hs n hn⟩

theorem get_of_null (hroot : h.root = none) : h.get R k = [] := by rw [get, hroot]

theorem Sound.mem_toList_iff (hs : h.Sound R) : (k, es) ∈ h.toList ↔ h.get R k = es ∧ es ≠ [] := by
  cases hroot : h.root with
  | none =>
    rw [get_of_null hroot, toList, hroot]
    simp
  | some n => exact HAMT.mem_toList_iff ⟨n, hroot, hs n hroot⟩

theorem Sound.nodup_keys (hs : h.Sound R) : h.keys.Nodup := by
  cases hroot : h.root with
  | none => simp [keys, toList, hroot]
  | some n => exact WF.nodup_keys ⟨n, hroot, hs n hroot⟩

theorem Sound.get_eq_iff (hs : h.Sound R) :
    h.get R k = es ↔ (∀ fs, (k, fs) ∈ h.toList ↔ es = fs ∧ fs ≠ []) := by
  constructor
  · rintro rfl fs
    exact hs.mem_toList_iff
  · intro hiff
    by_cases hget : h.get R k = []
    · by_contra hne
      have hmem := (hiff es).mpr ⟨rfl, fun h0 => hne (hget.trans h0.symm)⟩
      exact hne (hs.mem_toList_iff.mp hmem).1
    · exact ((hiff _).mp (hs.mem_toList_iff.mpr ⟨rfl, hget⟩)).1.symm

/-- Setting the empty list, on a null root too. -/
theorem Sound.erase_spec (hs : h.Sound R) (k : EntityID) :
    (h.set R k []).Sound R ∧ (h.set R k []).toList = h.toList.filter fun p => p.1 ≠ k := by
  rw [Sound, toList, toList, set]
  cases hroot : h.root with
  | none => exact ⟨fun n hn => (by cases hn), rfl⟩
  | some n =>
    obtain ⟨hpairs, hwf⟩ := HamtNode.erase_spec (hs n hroot) k
    refine ⟨hwf, ?_⟩
    dsimp only [Option.bind_some]
    rw [← hpairs, HamtNode.pairs]
    show _ = Option.elim (n.set k (h.hashKey R k) [] 0) [] _
    cases n.set k (h.hashKey R k) [] 0 <;> rfl

theorem Sound.get_erase (hs : h.Sound R) : (h.set R k []).get R k' = if k' = k then [] else h.get R k' := by
  obtain ⟨hs', hlist⟩ := hs.erase_spec k
  rw [hs'.get_eq_iff, hlist]
  intro fs
  rw [List.mem_filter, hs.mem_toList_iff]
  by_cases hk : k' = k
  · simp [hk]
  · simp [hk]

theorem get_set_of_null (hroot : h.root = none) : (h.set R k es).get R k' = [] := by
  refine get_of_null ?_
  rw [set, hroot]
  rfl

/-- **Every update keeps the routing.** -/
theorem Sound.set (hs : h.Sound R) (k : EntityID) (es : List CRDTEntry) : (h.set R k es).Sound R := by
  by_cases hes : es = []
  · rw [hes]
    exact (hs.erase_spec k).1
  · cases hroot : h.root with
    | none =>
      intro n hn
      rw [HAMT.set, hroot] at hn
      cases hn
    | some n =>
      obtain ⟨n', hn', hwf⟩ := wf_set ⟨n, hroot, hs n hroot⟩ k hes
      intro n'' hn''
      rw [hn'] at hn''
      cases hn''
      exact hwf

variable (R) in
/-- `Get` and `Len` of a trie are those of a map. -/
structure ReadsAs (h : HAMT) (m : EntityMap) : Prop where
  get : ∀ k, h.get R k = m.read k
  count : h.count = m.keys.card

theorem readsAs_new (seed : Seed) : (new seed).ReadsAs R ∅ where
  get := fun k => get_new seed k
  count := rfl

/-- `Set` is the map's update, on a present root or for the empty list. -/
theorem ReadsAs.set (hr : h.ReadsAs R m) (hs : h.Sound R) (hroot : es = [] ∨ h.root.isSome) :
    (h.set R k es).ReadsAs R (m.set k es) := by
  refine ⟨fun k' => ?_, ?_⟩
  · rw [EntityMap.read_set, ← hr.get]
    by_cases hes : es = []
    · rw [hes]
      exact hs.get_erase
    · have hwf := hs.wf (hroot.resolve_left hes)
      split
      · next hk => rw [hk, get_set_self hwf k hes]
      · next hk => exact get_set_of_ne hwf hk hes
  · rw [EntityMap.card_set, ← hr.count, ← hr.get]
    rfl

theorem ReadsAs.delete (hr : h.ReadsAs R m) (hs : h.Sound R) : (h.delete R k).ReadsAs R (m.delete k) := by
  have hempty : (h.get R k).isEmpty = true ↔ m.read k = [] := by rw [List.isEmpty_iff, hr.get]
  refine ⟨fun k' => ?_, ?_⟩
  · rw [EntityMap.read_delete, ← hr.get, HAMT.delete]
    split
    · next hnone =>
      split
      · next hk => rw [hk, hr.get, hempty.mp hnone]
      · rfl
    · exact hs.get_erase
  · rw [EntityMap.card_delete, ← hr.count, HAMT.delete]
    split
    · next hnone => rw [if_pos (hempty.mp hnone), sub_zero]
    · next hsome => rw [if_neg (mt hempty.mpr hsome)]

theorem ReadsAs.toList (hr : h.ReadsAs R m) (hs : h.Sound R) :
    (h.toList.map Prod.fst).Nodup ∧
      ∀ k es, (k, es) ∈ h.toList ↔ (m.lookup k).map Subtype.val = some es := by
  refine ⟨hs.nodup_keys, fun k es => ?_⟩
  rw [EntityMap.lookup_eq_some_iff, ← hr.get, hs.mem_toList_iff]

end HAMT

end Sovereign.Sync
