import Sovereign.Sync.HamtNode

/-!
# Tries in the arena

`HAMT.Set` and `HAMT.Delete` copy the path to the changed node and share the rest with the version they start from.
This module keeps the pointers of `pkg/sync/hamt.go`.

* `HamtArena` — nodes by pointer, `0` is null; `HamtArena.get`, `set` and `forEach` follow pointers as the source does,
  and `set` writes fresh nodes only;
* `Rep` — what stands below a pointer, as a value of `HamtNode`; an arena that grew has the same below old pointers
  (`Rep.extend`);
* `get_eq`, `forEach_eq`, `set_refines` — the three functions are those on values.

Reference counts are not here: none of the functions reads them or gives a node back.
-/

namespace Sovereign.Sync

open Lib Lib.Bitmap

/-- `NodePtr`; `0` is null. -/
abbrev NodePtr := ℕ

/-- A node in the arena: the children are pointers. -/
structure ArenaNode (κ β : Type) where
  bitmap : UInt32
  children : List NodePtr
  leaves : List (HamtLeaf κ β)

/-- `HamtArena`: the nodes allocated so far. -/
abbrev HamtArena (κ β : Type) := List (ArenaNode κ β)

/-- `for … { if !fn(…) { return false } }` over a list of pairs; whether the loop ran to its end. -/
def visit {κ β σ : Type} (fn : σ → κ → List β → σ × Bool) : σ → List (κ × List β) → σ × Bool
  | s, [] => (s, true)
  | s, p :: ps =>
    match fn s p.1 p.2 with
    | (s', true) => visit fn s' ps
    | (s', false) => (s', false)

theorem visit_append {κ β σ : Type} (fn : σ → κ → List β → σ × Bool) (s : σ) (ps qs : List (κ × List β)) :
    visit fn s (ps ++ qs) =
      match visit fn s ps with
      | (s', true) => visit fn s' qs
      | (s', false) => (s', false) := by
  induction ps generalizing s with
  | nil => rfl
  | cons p ps ih =>
    rw [List.cons_append, visit, visit]
    rcases fn s p.1 p.2 with ⟨s', _ | _⟩
    · rfl
    · exact ih s'

namespace HamtArena

variable {κ β : Type} {c : HamtNode κ β}

def node (a : HamtArena κ β) : NodePtr → Option (ArenaNode κ β)
  | 0 => none
  | p + 1 => a[p]?

/-- `AllocNode`, and the writes that fill the fresh node. -/
def allocNode (a : HamtArena κ β) (n : ArenaNode κ β) : HamtArena κ β × NodePtr := (a ++ [n], a.length + 1)

def allocLeaf (a : HamtArena κ β) (hash : UInt64) (key : κ) (entries : List β) : HamtArena κ β × NodePtr :=
  a.allocNode ⟨0, [], [⟨hash, key, entries⟩]⟩

/-- The child loop of `NodePtr.forEach`. -/
def forEachChild {σ : Type} (f : NodePtr → σ → Option (σ × Bool)) : List NodePtr → σ → Option (σ × Bool)
  | [], s => some (s, true)
  | c :: cs, s =>
    match f c s with
    | some (s', true) => forEachChild f cs s'
    | stopped => stopped

/-- `NodePtr.forEach`.  The recursion is bounded by the number of levels left; `none` is the bound. -/
def forEach {σ : Type} (a : HamtArena κ β) (fn : σ → κ → List β → σ × Bool) (levels : ℕ) (p : NodePtr)
    (s : σ) : Option (σ × Bool) :=
  match a.node p with
  | none => some (s, true)
  | some n =>
    match n.leaves with
    | l :: ls => some (visit fn s ((l :: ls).map fun l => (l.entityID, l.entries)))
    | [] =>
      match levels with
      | 0 => none
      | levels + 1 => forEachChild (forEach a fn levels) n.children s

/-! ### What stands below a pointer -/

mutual

/-- Below `p` stands the node `n`. -/
def Rep (a : HamtArena κ β) : NodePtr → HamtNode κ β → Prop
  | p, .mk bitmap children leaves => ∃ ptrs, a.node p = some ⟨bitmap, ptrs, leaves⟩ ∧ RepAll a ptrs children

/-- Below the pointers stand the nodes, in order. -/
def RepAll (a : HamtArena κ β) : List NodePtr → List (HamtNode κ β) → Prop
  | ptrs, [] => ptrs = []
  | ptrs, c :: cs => ∃ p ps, ptrs = p :: ps ∧ Rep a p c ∧ RepAll a ps cs

end

/-- The value a pointer stands for; null is `none`. -/
def RepRoot (a : HamtArena κ β) (p : NodePtr) : Option (HamtNode κ β) → Prop
  | none => p = 0
  | some n => Rep a p n

variable {a a' : HamtArena κ β} {p : NodePtr} {ptrs : List NodePtr} {n n' : HamtNode κ β}
  {children : List (HamtNode κ β)} {bitmap : UInt32} {leaves : List (HamtLeaf κ β)} {hash : κ → UInt64} {depth : ℕ}

theorem repAll_iff : RepAll a ptrs children ↔ List.Forall₂ (Rep a) ptrs children := by
  induction children generalizing ptrs with
  | nil => rw [RepAll, List.forall₂_nil_right_iff]
  | cons c cs ih =>
    rw [RepAll, List.forall₂_cons_right_iff]
    constructor
    · rintro ⟨q, qs, rfl, hc, hcs⟩
      exact ⟨q, qs, hc, ih.mp hcs, rfl⟩
    · rintro ⟨q, qs, hc, hcs, rfl⟩
      exact ⟨q, qs, rfl, hc, ih.mpr hcs⟩

theorem rep_mk : Rep a p (.mk bitmap children leaves) ↔
    ∃ ptrs, a.node p = some ⟨bitmap, ptrs, leaves⟩ ∧ List.Forall₂ (Rep a) ptrs children := by
  simp only [Rep, repAll_iff]

theorem node_extend (h : a <+: a') {m : ArenaNode κ β} (hp : a.node p = some m) : a'.node p = some m := by
  cases p with
  | zero => cases hp
  | succ p =>
    obtain ⟨rest, rfl⟩ := h
    exact (List.getElem?_append_left (List.getElem?_eq_some_iff.mp hp).1).trans hp

mutual

/-- **Below an old pointer nothing changes.** -/
theorem Rep.extend (h : a <+: a') : ∀ {p : NodePtr} {n : HamtNode κ β}, Rep a p n → Rep a' p n
  | _, .mk _ _ _, ⟨ptrs, hp, hall⟩ => ⟨ptrs, node_extend h hp, RepAll.extend h hall⟩

theorem RepAll.extend (h : a <+: a') :
    ∀ {ptrs : List NodePtr} {cs : List (HamtNode κ β)}, RepAll a ptrs cs → RepAll a' ptrs cs
  | _, [], hnil => hnil
  | _, _ :: _, ⟨p, ps, heq, hc, hcs⟩ => ⟨p, ps, heq, hc.extend h, RepAll.extend h hcs⟩

end

mutual

theorem Rep.unique : ∀ {p : NodePtr} {n n' : HamtNode κ β}, Rep a p n → Rep a p n' → n = n'
  | _, .mk _ _ _, .mk _ _ _, ⟨_, hp, hall⟩, ⟨_, hp', hall'⟩ => by
      rw [hp] at hp'
      cases hp'
      rw [RepAll.unique hall hall']

theorem RepAll.unique : ∀ {ptrs : List NodePtr} {cs cs' : List (HamtNode κ β)}, RepAll a ptrs cs →
    RepAll a ptrs cs' → cs = cs'
  | _, [], [], _, _ => rfl
  | _, [], _ :: _, hnil, ⟨_, _, hcons, _⟩ => by cases hnil.symm.trans hcons
  | _, _ :: _, [], ⟨_, _, hcons, _⟩, hnil => by cases hnil.symm.trans hcons
  | _, _ :: _, _ :: _, ⟨_, _, heq, hc, hcs⟩, ⟨_, _, heq', hc', hcs'⟩ => by
      rw [heq] at heq'
      cases heq'
      rw [hc.unique hc', RepAll.unique hcs hcs']

end

theorem Rep.ne_zero (h : Rep a p n) : p ≠ 0 := by
  rintro rfl
  cases n
  obtain ⟨_, hp, _⟩ := h
  cases hp

theorem RepRoot.extend {r : Option (HamtNode κ β)} (hr : RepRoot a p r) (h : a <+: a') : RepRoot a' p r := by
  cases r with
  | none => exact hr
  | some n => exact Rep.extend h hr

theorem rep_allocNode (bitmap : UInt32) (leaves : List (HamtLeaf κ β)) (h : List.Forall₂ (Rep a) ptrs children) :
    a <+: (a.allocNode ⟨bitmap, ptrs, leaves⟩).1 ∧
      Rep (a.allocNode ⟨bitmap, ptrs, leaves⟩).1 (a.allocNode ⟨bitmap, ptrs, leaves⟩).2
        (.mk bitmap children leaves) := by
  have hgrow : a <+: a ++ [⟨bitmap, ptrs, leaves⟩] := List.prefix_append _ _
  refine ⟨hgrow, rep_mk.mpr ⟨ptrs, ?_, h.imp fun _ _ hc => hc.extend hgrow⟩⟩
  show (a ++ [_])[a.length]? = _
  rw [List.getElem?_append_right le_rfl, Nat.sub_self]
  rfl

theorem forEach_eq {σ : Type} (fn : σ → κ → List β → σ × Bool) (hwf : n.WF hash depth) (hp : Rep a p n) (s : σ) :
    a.forEach fn (hamtMaxDepth - depth) p s = some (visit fn s n.toList) := by
  induction hwf generalizing p s with
  | @leaves depth ls deep nonempty stored distinct alone =>
    obtain ⟨ptrs, hnode, -⟩ := rep_mk.mp hp
    rw [HamtNode.toList_leaves nonempty]
    obtain ⟨l, ls, rfl⟩ := List.exists_cons_of_ne_nil nonempty
    rw [forEach.eq_def, hnode]
  | @branch depth bitmap children above dense child routed ih =>
    obtain ⟨ptrs, hnode, hall⟩ := rep_mk.mp hp
    have hlevels : hamtMaxDepth - depth = hamtMaxDepth - (depth + 1) + 1 := by omega
    rw [hlevels, forEach.eq_def, hnode, HamtNode.toList_branch]
    dsimp only
    -- along the children, in slot order
    have hih : ∀ c ∈ children, ∀ (q : NodePtr) (s : σ), Rep a q c →
        a.forEach fn (hamtMaxDepth - (depth + 1)) q s = some (visit fn s c.toList) := by
      intro c hc q s hq
      rw [← map_snd_slots dense] at hc
      obtain ⟨slot, hslot, rfl⟩ := List.mem_map.mp hc
      exact ih slot hslot hq s
    clear hnode hp ih routed child dense
    induction hall generalizing s with
    | nil => rfl
    | cons hq _ ihall =>
      rw [forEachChild, hih _ List.mem_cons_self _ s hq, List.flatMap_cons, visit_append]
      rcases visit fn s _ with ⟨s', _ | _⟩
      · rfl
      · exact ihall s' fun c hc => hih c (List.mem_cons_of_mem _ hc)

/-! ### Reading and writing -/

variable [DecidableEq κ]

/-- `NodePtr.get`, by the number of levels left above the collision lists. -/
def get (a : HamtArena κ β) (key : κ) (hash : UInt64) (levels : ℕ) (p : NodePtr) : List β :=
  match a.node p with
  | none => []
  | some n =>
    match n.leaves with
    | l :: ls =>
      match (l :: ls).find? (fun l => l.entityID == key) with
      | some found => found.entries
      | none => []
    | [] =>
      match levels with
      | 0 => []
      | levels + 1 =>
        let idx := chunk hash (hamtMaxDepth - (levels + 1))
        if hasBit n.bitmap idx then
          match n.children[rank n.bitmap idx]? with
          | none => []
          | some c => get a key hash levels c
        else []

def updateLeafEntry (a : HamtArena κ β) (oldLeaves : List (HamtLeaf κ β)) (idx : ℕ) (key : κ) (hash : UInt64)
    (entries : List β) : HamtArena κ β × NodePtr :=
  if entries.isEmpty then
    if oldLeaves.length = 1 then (a, 0) else a.allocNode ⟨0, [], oldLeaves.eraseIdx idx⟩
  else a.allocNode ⟨0, [], oldLeaves.set idx ⟨hash, key, entries⟩⟩

def appendToCollision (a : HamtArena κ β) (p : NodePtr) (oldLeaves : List (HamtLeaf κ β)) (key : κ) (hash : UInt64)
    (entries : List β) : HamtArena κ β × NodePtr :=
  if entries.isEmpty then (a, p) else a.allocNode ⟨0, [], oldLeaves ++ [⟨hash, key, entries⟩]⟩

/-- `NodePtr.setCollision`, by the number of levels left; `oldLeaves` are those of `p`. -/
def setCollision (a : HamtArena κ β) (p : NodePtr) (oldLeaves : List (HamtLeaf κ β)) (oldHash : UInt64) (newKey : κ)
    (newHash : UInt64) (newEntries : List β) : ℕ → HamtArena κ β × NodePtr
  | 0 => a.appendToCollision p oldLeaves newKey newHash newEntries
  | levels + 1 =>
    let depth := hamtMaxDepth - (levels + 1)
    let idxOld := chunk oldHash depth
    let idxNew := chunk newHash depth
    if idxOld = idxNew then
      let (a', child) := setCollision a p oldLeaves oldHash newKey newHash newEntries levels
      a'.allocNode ⟨bitAt idxOld, [child], []⟩
    else
      let (a', newLeaf) := a.allocLeaf newHash newKey newEntries
      a'.allocNode ⟨bitAt idxOld ||| bitAt idxNew, if idxOld < idxNew then [p, newLeaf] else [newLeaf, p], []⟩

/-- `NodePtr.set`, by the number of levels left; the empty entry list deletes.  `none` is the bound of the recursion or a
child that is not there. -/
def set (a : HamtArena κ β) (key : κ) (hash : UInt64) (entries : List β) (levels : ℕ) (p : NodePtr) :
    Option (HamtArena κ β × NodePtr) :=
  match a.node p with
  | none => some (a, 0)
  | some n =>
    match n.leaves with
    | l :: ls =>
      if (l :: ls).any (fun l => l.entityID == key) then
        some (a.updateLeafEntry (l :: ls) ((l :: ls).findIdx fun l => l.entityID == key) key hash entries)
      else if entries.isEmpty then some (a, p)
      else some (a.setCollision p (l :: ls) l.hash key hash entries levels)
    | [] =>
      match levels with
      | 0 => none
      | levels + 1 =>
        let idx := chunk hash (hamtMaxDepth - (levels + 1))
        let pos := rank n.bitmap idx
        if hasBit n.bitmap idx then
          match n.children[pos]? with
          | none => none
          | some child =>
            match set a key hash entries levels child with
            | none => none
            | some (a', newChild) =>
              if newChild = child then some (a', p)
              else if newChild = 0 then
                if n.bitmap &&& ~~~bitAt idx = 0 then some (a', 0)
                else some (a'.allocNode ⟨n.bitmap &&& ~~~bitAt idx,
                  n.children.take pos ++ n.children.drop (pos + 1), []⟩)
              else some (a'.allocNode ⟨n.bitmap,
                n.children.take pos ++ newChild :: n.children.drop (pos + 1), []⟩)
        else if entries.isEmpty then some (a, p)
        else
          let (a', leaf) := a.allocLeaf hash key entries
          some (a'.allocNode ⟨n.bitmap ||| bitAt idx, n.children.take pos ++ leaf :: n.children.drop pos, []⟩)

/-! ### The functions on values -/

omit [DecidableEq κ] in
theorem exists_ptr (hall : List.Forall₂ (Rep a) ptrs children) {pos : ℕ} (hc : children[pos]? = some c) :
    ∃ q, ptrs[pos]? = some q ∧ Rep a q c := by
  obtain ⟨hpos, hcget⟩ := List.getElem?_eq_some_iff.mp hc
  have hlt : pos < ptrs.length := hall.length_eq ▸ hpos
  refine ⟨ptrs[pos], List.getElem?_eq_getElem hlt, ?_⟩
  have hget := hall.get hlt hpos
  rw [List.get_eq_getElem, List.get_eq_getElem, hcget] at hget
  exact hget

omit [DecidableEq κ] in
theorem take_cons_drop {pos : ℕ} (hc : children[pos]? = some c) :
    children.take pos ++ c :: children.drop (pos + 1) = children := by
  obtain ⟨hpos, rfl⟩ := List.getElem?_eq_some_iff.mp hc
  rw [← List.drop_eq_getElem_cons hpos, List.take_append_drop]

theorem get_eq (key : κ) (h : UInt64) (hwf : n.WF hash depth) (hp : Rep a p n) :
    a.get key h (hamtMaxDepth - depth) p = n.get key h depth := by
  induction hwf generalizing p with
  | @leaves depth ls deep nonempty stored distinct alone =>
    obtain ⟨ptrs, hnode, -⟩ := rep_mk.mp hp
    obtain ⟨l, ls, rfl⟩ := List.exists_cons_of_ne_nil nonempty
    rewrite [get.eq_def, hnode, HamtNode.get]
    rfl
  | @branch depth bitmap children above dense child routed ih =>
    obtain ⟨ptrs, hnode, hall⟩ := rep_mk.mp hp
    have hlevels : hamtMaxDepth - depth = hamtMaxDepth - (depth + 1) + 1 := by omega
    have hdepth : hamtMaxDepth - (hamtMaxDepth - (depth + 1) + 1) = depth := by omega
    rw [hlevels, get.eq_def, hnode, HamtNode.get, if_neg (by omega)]
    dsimp only
    rw [hdepth]
    split
    · next hbit =>
      obtain ⟨c, hc, hmem, -⟩ := slots_split dense (chunk_lt h depth) hbit
      obtain ⟨q, hq, hqc⟩ := exists_ptr hall hc
      rw [HamtNode.getAt_eq _ _ _ _ _ hc, hq]
      exact ih _ hmem hqc
    · rfl

omit [DecidableEq κ] in
theorem updateLeafEntry_refines (a : HamtArena κ β) (oldLeaves : List (HamtLeaf κ β)) (idx : ℕ) (key : κ) (h : UInt64)
    (entries : List β) :
    a <+: (a.updateLeafEntry oldLeaves idx key h entries).1 ∧
      RepRoot (a.updateLeafEntry oldLeaves idx key h entries).1 (a.updateLeafEntry oldLeaves idx key h entries).2
        (HamtNode.updateLeafEntry oldLeaves idx key h entries) := by
  rw [updateLeafEntry, HamtNode.updateLeafEntry]
  split
  · split
    · exact ⟨List.prefix_rfl, rfl⟩
    · exact rep_allocNode _ _ .nil
  · exact rep_allocNode _ _ .nil

omit [DecidableEq κ] in
theorem setCollision_refines (hp : Rep a p (.mk bitmap children leaves)) (oldHash : UInt64) (key : κ) (h : UInt64)
    (entries : List β) (levels : ℕ) :
    a <+: (a.setCollision p leaves oldHash key h entries levels).1 ∧
      Rep (a.setCollision p leaves oldHash key h entries levels).1 (a.setCollision p leaves oldHash key h entries levels).2
        (HamtNode.setCollisionFrom (.mk bitmap children leaves) oldHash key h entries levels) := by
  induction levels with
  | zero =>
    rw [setCollision, HamtNode.setCollisionFrom, appendToCollision, HamtNode.appendToCollision]
    split
    · exact ⟨List.prefix_rfl, hp⟩
    · exact rep_allocNode _ _ .nil
  | succ levels ih =>
    rw [setCollision, HamtNode.setCollisionFrom]
    dsimp only
    split
    · -- one level down, and a node with that one child
      obtain ⟨hgrow, hchild⟩ := ih
      obtain ⟨hgrow', hrep⟩ := rep_allocNode (bitAt (chunk oldHash (hamtMaxDepth - (levels + 1)))) []
        (List.Forall₂.cons hchild .nil)
      exact ⟨hgrow.trans hgrow', hrep⟩
    · -- the hashes part: the old node is shared
      obtain ⟨hgrow, hleaf⟩ := rep_allocNode (a := a) 0 [⟨h, key, entries⟩] .nil
      have hp' := hp.extend hgrow
      split
      · obtain ⟨hgrow', hrep⟩ := rep_allocNode (bitAt (chunk oldHash (hamtMaxDepth - (levels + 1))) |||
          bitAt (chunk h (hamtMaxDepth - (levels + 1)))) [] (List.Forall₂.cons hp' (.cons hleaf .nil))
        exact ⟨hgrow.trans hgrow', hrep⟩
      · obtain ⟨hgrow', hrep⟩ := rep_allocNode (bitAt (chunk oldHash (hamtMaxDepth - (levels + 1))) |||
          bitAt (chunk h (hamtMaxDepth - (levels + 1)))) [] (List.Forall₂.cons hleaf (.cons hp' .nil))
        exact ⟨hgrow.trans hgrow', hrep⟩

/-- **`set` only allocates**, and what it returns stands for the value of `HamtNode.set`. -/
theorem set_refines (key : κ) (h : UInt64) (entries : List β) (hwf : n.WF hash depth) (hp : Rep a p n) :
    ∃ a' p', a.set key h entries (hamtMaxDepth - depth) p = some (a', p') ∧ a <+: a' ∧
      RepRoot a' p' (n.set key h entries depth) := by
  induction hwf generalizing p with
  | @leaves depth ls deep nonempty stored distinct alone =>
    obtain ⟨ptrs, hnode, -⟩ := rep_mk.mp hp
    obtain ⟨l, ls, rfl⟩ := List.exists_cons_of_ne_nil nonempty
    rw [set.eq_def, hnode, HamtNode.set]
    dsimp only
    split
    · exact ⟨_, _, rfl, updateLeafEntry_refines a (l :: ls) _ key h entries⟩
    · split
      · exact ⟨a, p, rfl, List.prefix_rfl, hp⟩
      · exact ⟨_, _, rfl, setCollision_refines hp l.hash key h entries (hamtMaxDepth - depth)⟩
  | @branch depth bitmap children above dense child routed ih =>
    obtain ⟨ptrs, hnode, hall⟩ := rep_mk.mp hp
    have hlevels : hamtMaxDepth - depth = hamtMaxDepth - (depth + 1) + 1 := by omega
    have hdepth : hamtMaxDepth - (hamtMaxDepth - (depth + 1) + 1) = depth := by omega
    rw [hlevels, set.eq_def, hnode, HamtNode.set]
    dsimp only
    rw [hdepth]
    split
    · next hbit =>
      obtain ⟨c, hc, hmem, -⟩ := slots_split dense (chunk_lt h depth) hbit
      obtain ⟨q, hq, hqc⟩ := exists_ptr hall hc
      obtain ⟨a', q', hset, hgrow, hroot⟩ := ih _ hmem hqc
      have hall' : List.Forall₂ (Rep a') ptrs children := hall.imp fun _ _ hr => hr.extend hgrow
      rw [hq]
      dsimp only
      rw [hset, HamtNode.setAt_eq _ _ _ _ _ _ hc]
      dsimp only
      cases hvalue : c.set key h entries (depth + 1) with
      | none =>
        rw [hvalue] at hroot
        have hnull : q' = 0 := hroot
        rw [if_neg (hnull ▸ hqc.ne_zero.symm), if_pos hnull]
        dsimp only
        split
        · exact ⟨a', 0, rfl, hgrow, rfl⟩
        · obtain ⟨hgrow', hrep⟩ := rep_allocNode (bitmap &&& ~~~bitAt (chunk h depth)) []
            (List.rel_append (List.forall₂_take _ hall') (List.forall₂_drop (rank bitmap (chunk h depth) + 1) hall'))
          exact ⟨_, _, rfl, hgrow.trans hgrow', hrep⟩
      | some c' =>
        rw [hvalue] at hroot
        have hc' : Rep a' q' c' := hroot
        dsimp only
        split
        · next heq =>
          -- the child came back unchanged, and so did its value
          have hsame : c' = c := hc'.unique (heq ▸ hqc.extend hgrow)
          refine ⟨a', p, rfl, hgrow, ?_⟩
          rw [hsame, take_cons_drop hc]
          exact hp.extend hgrow
        · rw [if_neg hc'.ne_zero]
          obtain ⟨hgrow', hrep⟩ := rep_allocNode bitmap []
            (List.rel_append (List.forall₂_take _ hall') 
              (.cons hc' (List.forall₂_drop (rank bitmap (chunk h depth) + 1) hall')))
          exact ⟨_, _, rfl, hgrow.trans hgrow', hrep⟩
    · split
      · exact ⟨a, p, rfl, List.prefix_rfl, hp⟩
      · obtain ⟨hgrow, hleaf⟩ := rep_allocNode (a := a) 0 [⟨h, key, entries⟩] .nil
        have hall' := hall.imp fun _ _ hr => Rep.extend hgrow hr
        obtain ⟨hgrow', hrep⟩ := rep_allocNode (bitmap ||| bitAt (chunk h depth)) []
          (List.rel_append (List.forall₂_take _ hall') (.cons hleaf (List.forall₂_drop (rank bitmap (chunk h depth)) hall')))
        exact ⟨_, _, rfl, hgrow.trans hgrow', hrep⟩

end HamtArena

end Sovereign.Sync
