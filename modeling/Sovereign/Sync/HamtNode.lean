import Sovereign.Lib.Bitmap
import Sovereign.Sync.Entry

/-!
# The hash array mapped trie

`pkg/sync/hamt.go`.  A node holds a bitmap with a dense list of children, or a list of leaves; five
hash bits choose the slot at each level, and at depth seven leaves whose hashes agree so far share
one collision list.  `HamtNode.get`, `HamtNode.set`, `HamtNode.setCollision` and `HamtNode.toList`
(the visit order of `forEach`) follow the source function by function; a null node pointer is
`none`.  Nodes are persistent values here, so the source's test whether a child pointer came back
unchanged makes no difference and is left out.

The node type is generic in the key and the stored entry.  `HamtNode.WF` is the routing invariant:
every key below a slot has that slot as its hash chunk, leaves above the last level stand alone, and
no stored list is empty.  Under it `get` and `set` are those of a map (`HamtNode.get_of_mem`,
`HamtNode.get_of_not_mem`, `HamtNode.set_spec`).
-/

namespace Sovereign.Sync

open Lib Lib.Bitmap

def hamtBits : ℕ := 5

def hamtMask : UInt64 := 31

def hamtMaxDepth : ℕ := 7

/-- `hamtLeaf`: one key with its hash and its entries. -/
structure HamtLeaf (κ β : Type) where
  hash : UInt64
  entityID : κ
  entries : List β

/-- `HamtNode`: a bitmap with its children, or a list of leaves. -/
inductive HamtNode (κ β : Type) where
  | mk (bitmap : UInt32) (children : List (HamtNode κ β)) (leaves : List (HamtLeaf κ β))

/-- The slot a hash selects at a depth. -/
def chunk (hash : UInt64) (depth : ℕ) : ℕ :=
  ((hash >>> UInt64.ofNat (depth * hamtBits)) &&& hamtMask).toNat

theorem chunk_lt (hash : UInt64) (depth : ℕ) : chunk hash depth < 32 := by
  have h : chunk hash depth ≤ 31 := by
    rw [chunk, UInt64.toNat_and]
    exact Nat.and_le_right
  omega

namespace HamtNode

variable {κ β : Type}

section
variable [DecidableEq κ] {c : HamtNode κ β}

def single (hash : UInt64) (key : κ) (entries : List β) : HamtNode κ β :=
  .mk 0 [] [⟨hash, key, entries⟩]

mutual

def get (key : κ) (hash : UInt64) : HamtNode κ β → ℕ → List β
  | .mk bitmap children leaves, depth =>
    match leaves with
    | l :: ls =>
      match (l :: ls).find? (fun l => l.entityID == key) with
      | some found => found.entries
      | none => []
    | [] =>
      if hamtMaxDepth ≤ depth then []
      else if hasBit bitmap (chunk hash depth) then
        getAt key hash children (rank bitmap (chunk hash depth)) (depth + 1)
      else []

def getAt (key : κ) (hash : UInt64) : List (HamtNode κ β) → ℕ → ℕ → List β
  | [], _, _ => []
  | c :: _, 0, depth => c.get key hash depth
  | _ :: cs, pos + 1, depth => getAt key hash cs pos depth

end

/-- `NodePtr.updateLeafEntry`: replace or delete the leaf at an index. -/
def updateLeafEntry (leaves : List (HamtLeaf κ β)) (idx : ℕ) (key : κ) (hash : UInt64)
    (entries : List β) : Option (HamtNode κ β) :=
  if entries.isEmpty then
    if leaves.length = 1 then none else some (.mk 0 [] (leaves.eraseIdx idx))
  else some (.mk 0 [] (leaves.set idx ⟨hash, key, entries⟩))

def appendToCollision (p : HamtNode κ β) (key : κ) (hash : UInt64) (entries : List β) :
    HamtNode κ β :=
  match p with
  | .mk _ _ leaves => if entries.isEmpty then p else .mk 0 [] (leaves ++ [⟨hash, key, entries⟩])

/-- `NodePtr.setCollision`, by the number of levels left above the collision lists. -/
def setCollisionFrom (p : HamtNode κ β) (oldHash : UInt64) (newKey : κ) (newHash : UInt64)
    (newEntries : List β) : ℕ → HamtNode κ β
  | 0 => appendToCollision p newKey newHash newEntries
  | levels + 1 =>
    let depth := hamtMaxDepth - (levels + 1)
    let idxOld := chunk oldHash depth
    let idxNew := chunk newHash depth
    if idxOld = idxNew then
      .mk (bitAt idxOld) [setCollisionFrom p oldHash newKey newHash newEntries levels] []
    else if idxOld < idxNew then
      .mk (bitAt idxOld ||| bitAt idxNew) [p, single newHash newKey newEntries] []
    else
      .mk (bitAt idxOld ||| bitAt idxNew) [single newHash newKey newEntries, p] []

/-- `NodePtr.setCollision`: push a leaf node down until the two hashes part. -/
def setCollision (p : HamtNode κ β) (oldHash : UInt64) (newKey : κ) (newHash : UInt64)
    (newEntries : List β) (depth : ℕ) : HamtNode κ β :=
  setCollisionFrom p oldHash newKey newHash newEntries (hamtMaxDepth - depth)

mutual

/-- `NodePtr.set`; the empty entry list deletes. -/
def set (key : κ) (hash : UInt64) (entries : List β) : HamtNode κ β → ℕ → Option (HamtNode κ β)
  | .mk bitmap children leaves, depth =>
    match leaves with
    | l :: ls =>
      if (l :: ls).any (fun l => l.entityID == key) then
        updateLeafEntry (l :: ls) ((l :: ls).findIdx fun l => l.entityID == key) key hash entries
      else if entries.isEmpty then some (.mk bitmap children (l :: ls))
      else some (setCollision (.mk bitmap children (l :: ls)) l.hash key hash entries depth)
    | [] =>
      let idx := chunk hash depth
      let pos := rank bitmap idx
      if hasBit bitmap idx then
        match setAt key hash entries children pos (depth + 1) with
        | none =>
          if bitmap &&& ~~~bitAt idx = 0 then none
          else some (.mk (bitmap &&& ~~~bitAt idx)
            (children.take pos ++ children.drop (pos + 1)) [])
        | some c => some (.mk bitmap (children.take pos ++ c :: children.drop (pos + 1)) [])
      else if entries.isEmpty then some (.mk bitmap children [])
      else some (.mk (bitmap ||| bitAt idx)
        (children.take pos ++ single hash key entries :: children.drop pos) [])

def setAt (key : κ) (hash : UInt64) (entries : List β) :
    List (HamtNode κ β) → ℕ → ℕ → Option (HamtNode κ β)
  | [], _, _ => none
  | c :: _, 0, depth => c.set key hash entries depth
  | _ :: cs, pos + 1, depth => setAt key hash entries cs pos depth

end

mutual

/-- The pairs `NodePtr.forEach` visits, in visit order. -/
def toList : HamtNode κ β → List (κ × List β)
  | .mk _ children leaves =>
    match leaves with
    | l :: ls => (l :: ls).map fun l => (l.entityID, l.entries)
    | [] => toListAll children

def toListAll : List (HamtNode κ β) → List (κ × List β)
  | [] => []
  | c :: cs => c.toList ++ toListAll cs

end

def keys (n : HamtNode κ β) : List κ := n.toList.map Prod.fst

/-! ### Equations -/

theorem getAt_eq (key : κ) (hash : UInt64) (cs : List (HamtNode κ β)) (pos depth : ℕ)
    (h : cs[pos]? = some c) : getAt key hash cs pos depth = c.get key hash depth := by
  induction cs generalizing pos with
  | nil => simp at h
  | cons d ds ih =>
    cases pos with
    | zero =>
      have : d = c := by simpa using h
      rw [this.symm, getAt]
    | succ pos => rw [getAt]; exact ih pos (by simpa using h)

theorem setAt_eq (key : κ) (hash : UInt64) (entries : List β) (cs : List (HamtNode κ β))
    (pos depth : ℕ) (h : cs[pos]? = some c) :
    setAt key hash entries cs pos depth = c.set key hash entries depth := by
  induction cs generalizing pos with
  | nil => simp at h
  | cons d ds ih =>
    cases pos with
    | zero =>
      have : d = c := by simpa using h
      rw [this.symm, setAt]
    | succ pos => rw [setAt]; exact ih pos (by simpa using h)

end

variable {hash : κ → UInt64} {depth i : ℕ} {n c c' : HamtNode κ β} {key : κ} {entries : List β} {bitmap : UInt32}
  {children : List (HamtNode κ β)} {l : HamtLeaf κ β} {ls : List (HamtLeaf κ β)}
  {before after : List (ℕ × HamtNode κ β)}

theorem toListAll_eq (cs : List (HamtNode κ β)) : toListAll cs = cs.flatMap toList := by
  induction cs with
  | nil => rfl
  | cons c cs ih => rw [toListAll, List.flatMap_cons, ih]

theorem toList_leaves (h : ls ≠ []) : (mk bitmap children ls).toList = ls.map fun l => (l.entityID, l.entries) := by
  cases ls with
  | nil => exact absurd rfl h
  | cons l ls => rw [toList]

theorem toList_branch : (mk bitmap children []).toList = children.flatMap toList := by
  rw [toList, toListAll_eq]

theorem toList_branch_slots (h : children.length = popcount bitmap) :
    (mk bitmap children []).toList = (slots bitmap children).flatMap fun s => s.2.toList := by
  rw [toList_branch]
  conv_lhs => rw [← map_snd_slots h]
  rw [List.flatMap_map]

/-! ### The routing invariant -/

/-- Well-formed at a depth for a hash function on keys. -/
inductive WF (hash : κ → UInt64) : ℕ → HamtNode κ β → Prop
  | leaves {depth : ℕ} {ls : List (HamtLeaf κ β)} (deep : depth ≤ hamtMaxDepth)
      (nonempty : ls ≠ [])
      (stored : ∀ l ∈ ls, l.hash = hash l.entityID ∧ l.entries ≠ [])
      (distinct : (ls.map HamtLeaf.entityID).Nodup)
      (alone : depth < hamtMaxDepth → ls.length = 1) : WF hash depth (.mk 0 [] ls)
  | branch {depth : ℕ} {bitmap : UInt32} {children : List (HamtNode κ β)}
      (above : depth < hamtMaxDepth) (dense : children.length = popcount bitmap)
      (child : ∀ s ∈ slots bitmap children, WF hash (depth + 1) s.2)
      (routed : ∀ s ∈ slots bitmap children, ∀ k ∈ s.2.keys, chunk (hash k) depth = s.1) :
      WF hash depth (.mk bitmap children [])

def empty : HamtNode κ β := .mk 0 [] []

theorem wf_empty (hash : κ → UInt64) : WF hash 0 (empty : HamtNode κ β) :=
  WF.branch (by decide) (by simp [popcount]) (by simp [slots]) (by simp [slots])

@[simp] theorem toList_empty : (empty : HamtNode κ β).toList = [] := by
  rw [empty, toList_branch]
  rfl

theorem wf_single (hash : κ → UInt64) (deep : depth ≤ hamtMaxDepth) (key : κ)
    (h : entries ≠ []) : WF hash depth (single (hash key) key entries) :=
  WF.leaves deep (by simp) (by simp [h]) (by simp) (by simp)

@[simp] theorem toList_single (hash : UInt64) (key : κ) (entries : List β) :
    (single hash key entries).toList = [(key, entries)] := by
  rw [single, toList_leaves (by simp)]
  rfl

theorem mem_keys_of_mem {k : κ} {es : List β} (h : (k, es) ∈ n.toList) : k ∈ n.keys := List.mem_map_of_mem h

theorem mem_toList_branch (h : children.length = popcount bitmap) {p : κ × List β} :
    p ∈ (mk bitmap children []).toList ↔ ∃ s ∈ slots bitmap children, p ∈ s.2.toList := by
  rw [toList_branch_slots h, List.mem_flatMap]

theorem WF.entries_ne_nil (h : WF hash depth n) : ∀ p ∈ n.toList, p.2 ≠ [] := by
  induction h with
  | leaves deep nonempty stored distinct alone =>
    intro p hp
    rw [toList_leaves nonempty, List.mem_map] at hp
    obtain ⟨l, hl, rfl⟩ := hp
    exact (stored l hl).2
  | branch above dense child routed ih =>
    intro p hp
    obtain ⟨s, hs, hps⟩ := (mem_toList_branch dense).mp hp
    exact ih s hs p hps

theorem WF.nodup_keys (h : WF hash depth n) : n.keys.Nodup := by
  induction h with
  | leaves deep nonempty stored distinct alone =>
    rw [keys, toList_leaves nonempty, List.map_map]
    exact distinct
  | @branch depth bitmap children above dense child routed ih =>
    have hfst := nodup_fst_slots dense
    rw [keys, toList_branch_slots dense, List.map_flatMap, List.nodup_flatMap]
    refine ⟨fun s hs => ih s hs, ?_⟩
    -- two slots hold keys with different chunks, hence no common key
    refine (List.pairwise_map.mp hfst).imp_of_mem fun {s t} hs ht hst => ?_
    intro k hks hkt
    exact hst ((routed s hs k hks).symm.trans (routed t ht k hkt))

/-! ### Nodes built from others -/

theorem WF.lone (h : WF hash depth (.mk 0 [] [l])) {depth' : ℕ} (deep' : depth' ≤ hamtMaxDepth) :
    WF hash depth' (.mk 0 [] [l]) := by
  cases h with
  | leaves deep nonempty stored distinct alone => exact WF.leaves deep' nonempty stored distinct (by simp)

theorem wf_pair (above : depth < hamtMaxDepth) {j : ℕ}
    (hij : i < j) (hj : j < 32) {d : HamtNode κ β} (hc : WF hash (depth + 1) c)
    (hd : WF hash (depth + 1) d) (hci : ∀ k ∈ c.keys, chunk (hash k) depth = i)
    (hdj : ∀ k ∈ d.keys, chunk (hash k) depth = j) : WF hash depth (.mk (bitAt i ||| bitAt j) [c, d] []) := by
  have hslots : slots (bitAt i ||| bitAt j) [c, d] = [(i, c), (j, d)] := by
    rw [slots, bits_two hij hj]
    rfl
  refine WF.branch above (by rw [popcount, bits_two hij hj]; rfl) ?_ ?_ <;> rw [hslots] <;>
    simp only [List.mem_cons, List.not_mem_nil, or_false, forall_eq_or_imp, forall_eq]
  · exact ⟨hc, hd⟩
  · exact ⟨hci, hdj⟩

/-- Pushing a leaf node down for a new key adds that key and nothing else. -/
theorem setCollisionFrom_spec (he : entries ≠ []) (levels : ℕ) (hlev : levels ≤ hamtMaxDepth)
    (h : WF hash (hamtMaxDepth - levels) (.mk 0 [] (l :: ls))) (hk : key ∉ (mk 0 [] (l :: ls) : HamtNode κ β).keys) :
    WF hash (hamtMaxDepth - levels)
        (setCollisionFrom (.mk 0 [] (l :: ls)) l.hash key (hash key) entries levels) ∧
      (setCollisionFrom (.mk 0 [] (l :: ls)) l.hash key (hash key) entries levels).toList.Perm
        ((key, entries) :: (mk 0 [] (l :: ls)).toList) := by
  induction levels with
  | zero =>
    have hids : key ∉ (l :: ls).map HamtLeaf.entityID := by
      rwa [keys, toList_leaves (by simp), List.map_map] at hk
    cases h with
    | leaves deep nonempty stored distinct alone =>
      rw [setCollisionFrom, appendToCollision, if_neg (by simpa using he)]
      constructor
      · refine WF.leaves deep (by simp) ?_ ?_ (fun hd => absurd hd (by simp))
        · intro m hm
          rcases List.mem_append.mp hm with hm | hm
          · exact stored m hm
          · rw [List.mem_singleton] at hm
            exact hm ▸ ⟨rfl, he⟩
        · rw [List.map_append, List.nodup_append']
          refine ⟨distinct, by simp, ?_⟩
          simpa using hids
      · rw [toList_leaves (by simp), toList_leaves (by simp), List.map_append]
        exact List.perm_append_singleton _ _
  | succ levels ih =>
    have habove : hamtMaxDepth - (levels + 1) < hamtMaxDepth := by
      simp only [hamtMaxDepth] at hlev ⊢
      omega
    have hnext : hamtMaxDepth - (levels + 1) + 1 = hamtMaxDepth - levels := by omega
    -- above the collision lists the leaf stands alone, so its own hash routes it
    have hlone : ls = [] := by
      cases h with
      | leaves deep nonempty stored distinct alone => simpa using alone habove
    subst hlone
    have hhash : l.hash = hash l.entityID := by
      cases h with
      | leaves deep nonempty stored distinct alone => exact (stored l (by simp)).1
    have hkeys : (mk 0 [] [l] : HamtNode κ β).keys = [l.entityID] := by
      rw [keys, toList_leaves (by simp)]
      rfl
    have hnew : (single (hash key) key entries).keys = [key] := by simp [keys]
    set depth := hamtMaxDepth - (levels + 1) with hdepth
    have hold_lt := chunk_lt l.hash depth
    have hnew_lt := chunk_lt (hash key) depth
    rw [setCollisionFrom]
    split
    · next heq =>
      obtain ⟨hwf, hperm⟩ := ih (by omega) (h.lone (by omega))
      have hslots : ∀ c : HamtNode κ β, slots (bitAt (chunk l.hash depth)) [c]
          = [(chunk l.hash depth, c)] := fun c => by
        rw [slots, bits_bitAt hold_lt]
        rfl
      constructor
      · refine WF.branch habove (by rw [popcount, bits_bitAt hold_lt]; rfl) ?_ ?_ <;>
          rw [hslots] <;> simp only [List.mem_singleton, forall_eq]
        · rw [hnext]
          exact hwf
        · intro k hkm
          rw [keys, (hperm.map Prod.fst).mem_iff, List.map_cons, List.mem_cons] at hkm
          rcases hkm with rfl | hkm
          · exact heq.symm
          · rw [← keys, hkeys, List.mem_singleton] at hkm
            rw [hkm, ← hhash]
      · rw [toList_branch, List.flatMap_singleton]
        exact hperm
    · next hne =>
      split
      · next hlt =>
        refine ⟨wf_pair habove hlt hnew_lt (h.lone habove) (wf_single hash habove key he) ?_ ?_, ?_⟩
        · simp [hkeys, hhash, hdepth]
        · simp [hnew, hdepth]
        · rw [toList_branch]
          simp
      · next hnlt =>
        have hlt : chunk (hash key) depth < chunk l.hash depth := by
          simp only [hdepth] at *
          omega
        refine ⟨?_, ?_⟩
        · rw [UInt32.or_comm]
          refine wf_pair habove hlt hold_lt (wf_single hash habove key he) (h.lone habove) ?_ ?_
          · simp [hnew, hdepth]
          · simp [hkeys, hhash, hdepth]
        · rw [toList_branch]
          simp

theorem absent_of_other_slot (dense : children.length = popcount bitmap)
    (routed : ∀ s ∈ slots bitmap children, ∀ k ∈ s.2.keys, chunk (hash k) depth = s.1)
    (hsplit : slots bitmap children = before ++ (chunk (hash key) depth, c) :: after) :
    ∀ s ∈ before ++ after, ∀ k ∈ s.2.keys, k ≠ key := by
  have hfst := nodup_fst_slots dense
  rw [hsplit, List.map_append, List.map_cons, List.nodup_append'] at hfst
  obtain ⟨-, hafter, hdis⟩ := hfst
  rintro s hs k hk rfl
  have hin : s ∈ slots bitmap children := by
    rw [hsplit]
    rcases List.mem_append.mp hs with hs | hs
    · exact List.mem_append_left _ hs
    · exact List.mem_append_right _ (List.mem_cons_of_mem _ hs)
  have hslot := routed s hin k hk
  rcases List.mem_append.mp hs with hs | hs
  · exact hdis (List.mem_map.mpr ⟨s, hs, hslot.symm⟩) List.mem_cons_self
  · exact (List.nodup_cons.mp hafter).1 (List.mem_map.mpr ⟨s, hs, hslot.symm⟩)

theorem WF.replaceChild (above : depth < hamtMaxDepth) (dense : children.length = popcount bitmap)
    (child : ∀ s ∈ slots bitmap children, WF hash (depth + 1) s.2)
    (routed : ∀ s ∈ slots bitmap children, ∀ k ∈ s.2.keys, chunk (hash k) depth = s.1) (hlt : i < 32)
    (hbit : hasBit bitmap i = true) (hc : children[rank bitmap i]? = some c)
    (hwf : WF hash (depth + 1) c') (hkeys : ∀ k ∈ c'.keys, chunk (hash k) depth = i) :
    (children.take (rank bitmap i) ++ c' :: children.drop (rank bitmap i + 1)).length = popcount bitmap ∧
      WF hash depth
        (.mk bitmap (children.take (rank bitmap i) ++ c' :: children.drop (rank bitmap i + 1)) []) := by
  have hlen : (children.take (rank bitmap i) ++ c' :: children.drop (rank bitmap i + 1)).length
      = popcount bitmap := by
    have hpos := (List.getElem?_eq_some_iff.mp hc).1
    rw [← dense, List.length_append, List.length_cons, List.length_take, List.length_drop]
    omega
  obtain ⟨d, -, -, hsplit⟩ := slots_split dense hlt hbit
  have hslot : ∀ s ∈ slots bitmap (children.take (rank bitmap i) ++ c' :: children.drop (rank bitmap i + 1)),
      s = (i, c') ∨ s ∈ slots bitmap children := by
    intro s hs
    rw [slots_replace dense hlt hbit c', List.mem_append, List.mem_cons] at hs
    rw [hsplit, List.mem_append, List.mem_cons]
    rcases hs with hs | hs | hs
    · exact .inr (.inl hs)
    · exact .inl hs
    · exact .inr (.inr (.inr hs))
  refine ⟨hlen, WF.branch above hlen (fun s hs => ?_) fun s hs k hk => ?_⟩
  · rcases hslot s hs with rfl | hs
    · exact hwf
    · exact child s hs
  · rcases hslot s hs with rfl | hs
    · exact hkeys k hk
    · exact routed s hs k hk

/-! ### Reading -/

variable [DecidableEq κ]

theorem find_leaf (hd : (ls.map HamtLeaf.entityID).Nodup)
    (hl : l ∈ ls) : ls.find? (fun m => m.entityID == l.entityID) = some l := by
  induction ls with
  | nil => cases hl
  | cons m ms ih =>
    rw [List.map_cons, List.nodup_cons] at hd
    rcases List.mem_cons.mp hl with rfl | hm
    · simp
    · have hne : m.entityID ≠ l.entityID := fun e => hd.1 (e ▸ List.mem_map_of_mem hm)
      rw [List.find?_cons_of_neg (by simpa using hne)]
      exact ih hd.2 hm

theorem get_of_mem (h : WF hash depth n)
    {es : List β} (hm : (key, es) ∈ n.toList) : n.get key (hash key) depth = es := by
  induction h with
  | @leaves depth ls deep nonempty stored distinct alone =>
    rw [toList_leaves nonempty, List.mem_map] at hm
    obtain ⟨l, hl, hle⟩ := hm
    obtain ⟨rfl, rfl⟩ := Prod.mk.injEq .. ▸ hle
    cases ls with
    | nil => exact absurd rfl nonempty
    | cons m ms => rw [get, find_leaf distinct hl]
  | @branch depth bitmap children above dense child routed ih =>
    obtain ⟨s, hs, hps⟩ := (mem_toList_branch dense).mp hm
    have hchunk := routed s hs key (mem_keys_of_mem hps)
    have hlt := chunk_lt (hash key) depth
    have hbit : hasBit bitmap (chunk (hash key) depth) = true :=
      hchunk ▸ hasBit_of_mem_slots dense hs (hchunk ▸ hlt)
    obtain ⟨c, hc, hmem, -⟩ := slots_split dense hlt hbit
    have hfst := nodup_fst_slots dense
    have hsc : s = (chunk (hash key) depth, c) :=
      List.inj_on_of_nodup_map hfst hs hmem hchunk.symm
    have hget := ih s hs hps
    rw [get, if_neg (Nat.not_le.mpr above), if_pos hbit, getAt_eq _ _ _ _ _ hc]
    rw [hsc] at hget
    exact hget

theorem get_of_not_mem (h : WF hash depth n) (hk : key ∉ n.keys) : n.get key (hash key) depth = [] := by
  induction h with
  | @leaves depth ls deep nonempty stored distinct alone =>
    have hnone : ls.find? (fun m => m.entityID == key) = none := by
      rw [List.find?_eq_none]
      intro l hl he
      apply hk
      rw [keys, toList_leaves nonempty, List.map_map]
      exact List.mem_map.mpr ⟨l, hl, by simpa using he⟩
    cases ls with
    | nil => exact absurd rfl nonempty
    | cons m ms => rw [get, hnone]
  | @branch depth bitmap children above dense child routed ih =>
    rw [get, if_neg (Nat.not_le.mpr above)]
    split
    · next hbit =>
      obtain ⟨c, hc, hmem, -⟩ := slots_split dense (chunk_lt (hash key) depth) hbit
      rw [getAt_eq _ _ _ _ _ hc]
      refine ih _ hmem fun hkc => hk ?_
      obtain ⟨p, hp, hpk⟩ := List.mem_map.mp hkc
      exact List.mem_map.mpr ⟨p, (mem_toList_branch dense).mpr ⟨_, hmem, hp⟩, hpk⟩
    · rfl

/-! ### Writing -/

theorem filter_of_absent {ps : List (κ × List β)} (h : ∀ p ∈ ps, p.1 ≠ key) : ps.filter (fun p => p.1 ≠ key) = ps :=
  List.filter_eq_self.mpr fun p hp => by simpa using h p hp

theorem perm_replace {before after : List (κ × List β)} (es es' : List β)
    (hb : ∀ p ∈ before, p.1 ≠ key) (ha : ∀ p ∈ after, p.1 ≠ key) : (before ++ (key, es') :: after).Perm
      ((key, es') :: (before ++ (key, es) :: after).filter fun p => p.1 ≠ key) := by
  rw [List.filter_append, List.filter_cons_of_neg (by simp), filter_of_absent hb, filter_of_absent ha]
  exact List.perm_middle

theorem exists_leaf (hd : (ls.map HamtLeaf.entityID).Nodup)
    (hk : ls.any (fun l => l.entityID == key) = true) : ∃ before l after, ls = before ++ l :: after ∧
      ls.findIdx (fun l => l.entityID == key) = before.length ∧ l.entityID = key ∧
      ∀ m ∈ before ++ after, m.entityID ≠ key := by
  obtain ⟨m, hm, hmk⟩ := List.any_eq_true.mp hk
  set i := ls.findIdx fun l => l.entityID == key with hi
  have hlt : i < ls.length := List.findIdx_lt_length_of_exists ⟨m, hm, hmk⟩
  have hik : (ls.get ⟨i, hlt⟩).entityID = key := by
    have := List.findIdx_getElem (w := hlt)
    simpa using this
  have hsplit : ls = ls.take i ++ ls.get ⟨i, hlt⟩ :: ls.drop (i + 1) := by simp
  refine ⟨_, _, _, hsplit, by rw [List.length_take]; omega, hik, fun m hm heq => ?_⟩
  rw [hsplit, List.map_append, List.map_cons, hik, List.nodup_append'] at hd
  obtain ⟨-, hafter, hdis⟩ := hd
  rcases List.mem_append.mp hm with hm | hm
  · exact hdis (List.mem_map.mpr ⟨m, hm, heq⟩) List.mem_cons_self
  · exact (List.nodup_cons.mp hafter).1 (List.mem_map.mpr ⟨m, hm, heq⟩)

theorem updateLeafEntry_spec (h : WF hash depth (.mk 0 [] ls)) (hne : ls ≠ [])
    (hk : ls.any (fun l => l.entityID == key) = true) (he : entries ≠ []) :
    ∃ n, updateLeafEntry ls (ls.findIdx fun l => l.entityID == key) key (hash key) entries = some n ∧
      WF hash depth n ∧
      n.toList.Perm ((key, entries) :: (mk 0 [] ls).toList.filter fun p => p.1 ≠ key) := by
  cases h with
  | branch => exact absurd rfl hne
  | leaves deep nonempty stored distinct alone =>
    obtain ⟨before, l, after, rfl, hidx, rfl, hothers⟩ := exists_leaf distinct hk
    have hset : (before ++ l :: after).set before.length ⟨hash l.entityID, l.entityID, entries⟩
        = before ++ ⟨hash l.entityID, l.entityID, entries⟩ :: after := by simp
    rw [hidx, updateLeafEntry, if_neg (by simpa using he), hset]
    refine ⟨_, rfl, WF.leaves deep (by simp) ?_ ?_ ?_, ?_⟩
    · intro m hm
      rcases List.mem_or_eq_of_mem_set (hset ▸ hm) with hm | rfl
      · exact stored m hm
      · exact ⟨rfl, he⟩
    · simpa using distinct
    · simpa using alone
    · rw [toList_leaves (by simp), toList_leaves nonempty]
      simp only [List.map_append, List.map_cons]
      apply perm_replace
      · intro p hp
        obtain ⟨m, hm, rfl⟩ := List.mem_map.mp hp
        exact hothers m (List.mem_append_left _ hm)
      · intro p hp
        obtain ⟨m, hm, rfl⟩ := List.mem_map.mp hp
        exact hothers m (List.mem_append_right _ hm)

theorem filter_slots {ss : List (ℕ × HamtNode κ β)} (h : ∀ s ∈ ss, ∀ k ∈ s.2.keys, k ≠ key) :
    (ss.flatMap fun s => s.2.toList).filter (fun p => p.1 ≠ key) = ss.flatMap fun s => s.2.toList := by
  refine filter_of_absent fun p hp => ?_
  obtain ⟨s, hs, hps⟩ := List.mem_flatMap.mp hp
  exact h s hs p.1 (List.mem_map_of_mem hps)

theorem set_branch_perm (hothers : ∀ s ∈ before ++ after, ∀ k ∈ s.2.keys, k ≠ key)
    (hc : c'.toList.Perm ((key, entries) :: c.toList.filter fun p => p.1 ≠ key)) :
    ((before ++ (i, c') :: after).flatMap fun s => s.2.toList).Perm
      ((key, entries) ::
        ((before ++ (i, c) :: after).flatMap fun s => s.2.toList).filter fun p => p.1 ≠ key) := by
  simp only [List.flatMap_append, List.flatMap_cons, List.filter_append,
    filter_slots fun s hs => hothers s (List.mem_append_left _ hs),
    filter_slots fun s hs => hothers s (List.mem_append_right _ hs)]
  calc (before.flatMap fun s => s.2.toList) ++ (c'.toList ++ after.flatMap fun s => s.2.toList)
      _ |>.Perm ((before.flatMap fun s => s.2.toList) ++
          (((key, entries) :: c.toList.filter fun p => p.1 ≠ key) ++
            after.flatMap fun s => s.2.toList)) := (hc.append_right _).append_left _
      _ |>.Perm _ := by
          rw [List.cons_append]
          exact List.perm_middle

/-- **`set` with a non-empty list** keeps the invariant and replaces the entries of its key. -/
theorem set_spec (h : WF hash depth n) (key : κ)
    (he : entries ≠ []) : ∃ n', n.set key (hash key) entries depth = some n' ∧
      WF hash depth n' ∧
      n'.toList.Perm ((key, entries) :: n.toList.filter fun p => p.1 ≠ key) := by
  have hemp : entries.isEmpty = false := by simpa using he
  induction h with
  | @leaves depth ls deep nonempty stored distinct alone =>
    have hwf : WF hash depth (.mk 0 [] ls) := WF.leaves deep nonempty stored distinct alone
    cases ls with
    | nil => exact absurd rfl nonempty
    | cons l ls =>
      rw [set]
      split
      · next hany => exact updateLeafEntry_spec hwf nonempty hany he
      · next hany =>
        have hk : key ∉ (mk 0 [] (l :: ls) : HamtNode κ β).keys := by
          rw [keys, toList_leaves nonempty, List.map_map]
          rintro hmem
          obtain ⟨m, hm, hmk⟩ := List.mem_map.mp hmem
          exact hany (List.any_eq_true.mpr ⟨m, hm, by simpa using hmk⟩)
        have hfilter : (mk 0 [] (l :: ls)).toList.filter (fun p => p.1 ≠ key)
            = (mk 0 [] (l :: ls)).toList :=
          filter_of_absent fun p hp e => hk (e ▸ List.mem_map_of_mem hp)
        rw [if_neg (by simp [hemp])]
        refine ⟨_, rfl, ?_⟩
        rw [hfilter, setCollision]
        have hback : hamtMaxDepth - (hamtMaxDepth - depth) = depth := by omega
        have := setCollisionFrom_spec he (hamtMaxDepth - depth) (by omega)
          (hback.symm ▸ hwf) hk
        rwa [hback] at this
  | @branch depth bitmap children above dense child routed ih =>
    have hlt := chunk_lt (hash key) depth
    rw [set]
    split
    · next hbit =>
      obtain ⟨c, hc, hmem, hsplit⟩ := slots_split dense hlt hbit
      obtain ⟨c', hset, hwf', hperm⟩ := ih _ hmem
      have hkeys : ∀ k ∈ c'.keys, chunk (hash k) depth = chunk (hash key) depth := by
        intro k hk
        rw [keys, (hperm.map Prod.fst).mem_iff, List.map_cons, List.mem_cons] at hk
        rcases hk with rfl | hk
        · rfl
        · obtain ⟨p, hp, rfl⟩ := List.mem_map.mp hk
          exact routed _ hmem p.1 (List.mem_map_of_mem (List.mem_filter.mp hp).1)
      obtain ⟨hlen, hwf⟩ := WF.replaceChild above dense child routed hlt hbit hc hwf' hkeys
      rw [setAt_eq _ _ _ _ _ _ hc, hset]
      refine ⟨_, rfl, hwf, ?_⟩
      rw [toList_branch_slots hlen, toList_branch_slots dense, slots_replace dense hlt hbit c', hsplit]
      exact set_branch_perm (absent_of_other_slot dense routed hsplit) hperm
    · next hbit =>
      have hbit' : hasBit bitmap (chunk (hash key) depth) = false := by simpa using hbit
      obtain ⟨hins, hold⟩ := slots_insert dense hlt hbit' (single (hash key) key entries)
      have hlen : (children.take (rank bitmap (chunk (hash key) depth)) ++
          single (hash key) key entries ::
            children.drop (rank bitmap (chunk (hash key) depth))).length
          = popcount (bitmap ||| bitAt (chunk (hash key) depth)) := by
        have hsum := congrArg List.length (bits_of_not_hasBit hlt hbit')
        rw [← popcount, ← dense] at hsum
        rw [popcount, bits_mark bitmap hlt]
        simp only [List.length_append, List.length_cons, List.length_take,
          List.length_drop] at hsum ⊢
        omega
      have hnew : (single (hash key) key entries).keys = [key] := by simp [keys]
      -- `key` is new: its slot was free
      have hfresh : ∀ s ∈ slots bitmap children, ∀ k ∈ s.2.keys, k ≠ key := by
        rintro s hs k hk rfl
        rw [routed s hs k hk] at hbit hlt
        exact hbit (hasBit_of_mem_slots dense hs hlt)
      rw [if_neg (by simp [hemp])]
      refine ⟨_, rfl, WF.branch above hlen ?_ ?_, ?_⟩
      · rw [hins]
        intro s hs
        rw [List.mem_append, List.mem_cons] at hs
        rcases hs with hs | rfl | hs
        · exact child s (hold ▸ List.mem_append_left _ hs)
        · exact wf_single hash above key he
        · exact child s (hold ▸ List.mem_append_right _ hs)
      · rw [hins]
        intro s hs k hk
        rw [List.mem_append, List.mem_cons] at hs
        rcases hs with hs | rfl | hs
        · exact routed s (hold ▸ List.mem_append_left _ hs) k hk
        · rw [hnew, List.mem_singleton] at hk
          rw [hk]
        · exact routed s (hold ▸ List.mem_append_right _ hs) k hk
      · rw [toList_branch_slots hlen, toList_branch_slots dense, filter_slots hfresh, hins, hold]
        simp only [List.flatMap_append, List.flatMap_cons, toList_single, List.singleton_append]
        exact List.perm_middle

end HamtNode

end Sovereign.Sync
