import Sovereign.Lib.Linked
import Sovereign.Lib.Run
import Sovereign.Database.MemTable

/-!
# Racing insertions into the skip list

`Put` of `skiplist_arena.go`, as any number of goroutines run it: each level is a chain of next
offsets, a call looks for its place from the top level down, and then splices its node from the
bottom level up, each splice a store of its own next offset and a compare-and-swap of the
predecessor's.

* `SkipList.Rep` holds in every state reached: every level is a chain, a level is part of the one
  below, and every node that was allocated is in the lowest chain or still being put.  No node is lost
  and none is met twice, whatever the interleaving.
* The order is another matter.  A search stops when the node behind its predecessor is not smaller,
  and then reads the predecessor's next offset *again*; if a smaller node has come in between, the
  splice goes in front of it.  `Ordered` is the condition that this has not happened.

A node is its number; the head is `0`, and the offset `0xFFFFFFFF` is `none`.  The allocation of a node is
one step here: that racing allocations get regions of their own is the subject of
`Sovereign.Database.ArenaAlloc`.  An allocation that fails changes nothing and is left out.
-/

namespace Sovereign.Database

open Lib

def maxHeight : ℕ := 11

/-- The local variables of a `Put` from the allocation of its node on. -/
structure Splice where
  node : ℕ
  key : Bytes
  height : ℕ
  listHeight : ℕ
  prev : ℕ → ℕ
  next : ℕ → Option ℕ

/-- `prev[level] = x`, `next[level] = nxt`. -/
def Splice.found (c : Splice) (level x : ℕ) (nxt : Option ℕ) : Splice :=
  { c with prev := Function.update c.prev level x, next := Function.update c.next level nxt }

/-- Where a goroutine is in `Put`: at the operation it takes next. -/
inductive PutCall where
  | idle
  | loadHeight (c : Splice)
  | casHeight (c : Splice) (curr : ℕ)
  | loadList (c : Splice)
  /-- The load of the inner loop of a search, in the descent or (`again`) after a failed splice. -/
  | search (c : Splice) (again : Bool) (level x : ℕ)
  /-- The second load, behind the loop. -/
  | reread (c : Splice) (again : Bool) (level x : ℕ)
  | above (c : Splice) (level : ℕ)
  | link (c : Splice) (level : ℕ)
  | cas (c : Splice) (level : ℕ)

/-- The node a call is putting. -/
def PutCall.node? : PutCall → Option ℕ
  | .idle => none
  | .loadHeight c => some c.node
  | .casHeight c _ => some c.node
  | .loadList c => some c.node
  | .search c _ _ _ => some c.node
  | .reread c _ _ _ => some c.node
  | .above c _ => some c.node
  | .link c _ => some c.node
  | .cas c _ => some c.node

theorem PutCall.eq_idle {c : PutCall} (h : c.node? = none) : c = .idle := by
  cases c with
  | idle => rfl
  | _ => cases h

/-- The nodes of the list, their next offsets, and the calls of `n` goroutines. -/
structure SkipList (n : ℕ) where
  count : ℕ
  key : ℕ → Bytes
  next : ℕ → ℕ → Option ℕ
  height : ℕ
  calls : Fin n → PutCall

/-- A goroutine calls `Put` (the height is the random one), or takes the next operation of its call. -/
inductive PutStep (n : ℕ) where
  | put (w : Fin n) (key : Bytes) (height : ℕ)
  | go (w : Fin n)
deriving DecidableEq

namespace SkipList

variable {n : ℕ}

/-- `NewSkipListArena`: the head, with no successor on any level. -/
def boot (n : ℕ) : SkipList n := ⟨0, fun _ => [], fun _ _ => none, 1, fun _ => .idle⟩

def goto (s : SkipList n) (w : Fin n) (c : PutCall) : SkipList n :=
  { s with calls := Function.update s.calls w c }

def setNext (s : SkipList n) (level x : ℕ) (nxt : Option ℕ) : SkipList n :=
  { s with next := Function.update s.next level (Function.update (s.next level) x nxt) }

/-- `allocNode`: a new node with no successors. -/
def alloc (s : SkipList n) (key : Bytes) : SkipList n :=
  { s with
    count := s.count + 1
    key := Function.update s.key (s.count + 1) key
    next := fun level => Function.update (s.next level) (s.count + 1) none }

/-- The search stops at a node that has no successor or one that is not smaller. -/
def stops (s : SkipList n) (key : Bytes) : Option ℕ → Bool
  | none => true
  | some y => compare (s.key y) key != .lt

/-- What follows the descent: the levels above the list, then the splices. -/
def afterDescent (c : Splice) : PutCall :=
  if c.listHeight < c.height then .above c c.listHeight else .link c 0

/-- One atomic operation; a call that returns logs its node. -/
def step (s : SkipList n) : PutStep n → Option (SkipList n × List ℕ)
  | .put w key height =>
    match s.calls w with
    | .idle =>
      if 0 < height ∧ height ≤ maxHeight then
        some ((s.alloc key).goto w (.loadHeight ⟨s.count + 1, key, height, 0, fun _ => 0, fun _ => none⟩), [])
      else none
    | _ => none
  | .go w =>
    match s.calls w with
    | .idle => none
    | .loadHeight c =>
      if c.height ≤ s.height then some (s.goto w (.loadList c), [])
      else some (s.goto w (.casHeight c s.height), [])
    | .casHeight c curr =>
      if s.height = curr then some ({ s with height := c.height }.goto w (.loadList c), [])
      else some (s.goto w (.loadHeight c), [])
    | .loadList c =>
      let c := { c with listHeight := s.height }
      match s.height with
      | 0 => some (s.goto w (afterDescent c), [])
      | level + 1 => some (s.goto w (.search c false level 0), [])
    | .search c again level x =>
      match s.next level x with
      | none => some (s.goto w (.reread c again level x), [])
      | some y =>
        if s.stops c.key (some y) then some (s.goto w (.reread c again level x), [])
        else some (s.goto w (.search c again level y), [])
    | .reread c again level x =>
      let c := c.found level x (s.next level x)
      if again then some (s.goto w (.link c level), [])
      else
        match level with
        | 0 => some (s.goto w (afterDescent c), [])
        | below + 1 => some (s.goto w (.search c false below x), [])
    | .above c level =>
      let c := c.found level 0 (s.next level 0)
      if level + 1 < c.height then some (s.goto w (.above c (level + 1)), [])
      else some (s.goto w (.link c 0), [])
    | .link c level => some ((s.setNext level c.node (c.next level)).goto w (.cas c level), [])
    | .cas c level =>
      if s.next level (c.prev level) = c.next level then
        let s := s.setNext level (c.prev level) (some c.node)
        if level + 1 < c.height then some (s.goto w (.link c (level + 1)), [])
        else some (s.goto w .idle, [c.node])
      else some (s.goto w (.search c true level (c.prev level)), [])

/-- The node a call is about to splice in front of is not smaller than its own. -/
def OrderedCall (s : SkipList n) : PutCall → Prop
  | .cas c level => s.next level (c.prev level) = c.next level → s.stops c.key (c.next level) = true
  | _ => True

/-- No smaller node has come between the two loads of the search that precedes a splice. -/
def Ordered (s : SkipList n) : PutStep n → Prop
  | .put _ _ _ => True
  | .go w => s.OrderedCall (s.calls w)

/-! ### What holds in every state -/

/-- A place from where a search may go on: the head or a smaller node of the level. -/
def Before (s : SkipList n) (chain : ℕ → List ℕ) (key : Bytes) (level x : ℕ) : Prop :=
  x = 0 ∨ x ∈ chain level ∧ compare (s.key x) key = .lt

/-- A call that has spliced its node into the first `levels` levels. -/
structure Putting (s : SkipList n) (chain : ℕ → List ℕ) (c : Splice) (levels : ℕ) : Prop where
  pos : 0 < c.node
  le_count : c.node ≤ s.count
  key_eq : s.key c.node = c.key
  height_pos : 0 < c.height
  spliced : ∀ i < levels, c.node ∈ chain i
  unspliced : ∀ i, levels ≤ i → c.node ∉ chain i

/-- The predecessors recorded for the levels below `levels` are places to splice at. -/
def Known (s : SkipList n) (chain : ℕ → List ℕ) (c : Splice) (levels : ℕ) : Prop :=
  ∀ i < levels, s.Before chain c.key i (c.prev i)

def CallRep (s : SkipList n) (chain : ℕ → List ℕ) : PutCall → Prop
  | .idle => True
  | .loadHeight c => s.Putting chain c 0
  | .casHeight c _ => s.Putting chain c 0
  | .loadList c => s.Putting chain c 0
  | .search c again level x => s.Before chain c.key level x ∧
      if again then s.Putting chain c level ∧ level < c.height ∧ s.Known chain c c.height
      else s.Putting chain c 0 ∧ ∀ i, level < i → i < c.listHeight → s.Before chain c.key i (c.prev i)
  | .reread c again level x => s.Before chain c.key level x ∧
      if again then s.Putting chain c level ∧ level < c.height ∧ s.Known chain c c.height
      else s.Putting chain c 0 ∧ ∀ i, level < i → i < c.listHeight → s.Before chain c.key i (c.prev i)
  | .above c level => s.Putting chain c 0 ∧ level < c.height ∧ s.Known chain c level
  | .link c level => s.Putting chain c level ∧ level < c.height ∧ s.Known chain c c.height
  | .cas c level => s.Putting chain c level ∧ level < c.height ∧ s.Known chain c c.height ∧
      s.next level c.node = c.next level

/-- The invariant of all runs; `chain i` lists the nodes of level `i` behind the head. -/
structure Rep (s : SkipList n) (chain : ℕ → List ℕ) : Prop where
  linked : ∀ i, Linked (s.next i) (0 :: chain i)
  nodup : ∀ i, (0 :: chain i).Nodup
  le_count : ∀ i, ∀ v ∈ chain i, v ≤ s.count
  nested : ∀ i, ∀ v ∈ chain (i + 1), v ∈ chain i
  calls : ∀ w, s.CallRep chain (s.calls w)
  apart : ∀ w v, w ≠ v → ∀ a ∈ (s.calls w).node?, a ∉ (s.calls v).node?
  accounted : ∀ v, 0 < v → v ≤ s.count → v ∈ chain 0 ∨ ∃ w, v ∈ (s.calls w).node?

theorem next_setNext (s : SkipList n) (level x : ℕ) (nxt : Option ℕ) (i v : ℕ) :
    (s.setNext level x nxt).next i v = if i = level ∧ v = x then nxt else s.next i v := by
  dsimp only [setNext]
  by_cases hi : i = level
  · subst hi
    rw [Function.update_self, Function.update_apply]
    simp only [true_and]
  · rw [Function.update_of_ne hi, if_neg fun h => hi h.1]

/-- What a step adds: nodes and links, and nothing is taken back. -/
structure Grows (s s' : SkipList n) (chain chain' : ℕ → List ℕ) : Prop where
  count : s.count ≤ s'.count
  key : ∀ v ≤ s.count, s'.key v = s.key v
  chain : ∀ i, List.Sublist (chain i) (chain' i)

theorem Grows.refl (s : SkipList n) (chain : ℕ → List ℕ) : Grows s s chain chain :=
  ⟨le_refl _, fun _ _ => rfl, fun _ => List.Sublist.refl _⟩

theorem Grows.trans {s s' s'' : SkipList n} {chain chain' chain'' : ℕ → List ℕ}
    (h : Grows s s' chain chain') (h' : Grows s' s'' chain' chain'') : Grows s s'' chain chain'' :=
  ⟨h.count.trans h'.count, fun v hv => (h'.key v (hv.trans h.count)).trans (h.key v hv),
    fun i => (h.chain i).trans (h'.chain i)⟩

section
variable {s s' : SkipList n} {chain chain' : ℕ → List ℕ}

theorem Rep.zero_notMem (h : s.Rep chain) (i : ℕ) : 0 ∉ chain i := (List.nodup_cons.mp (h.nodup i)).1

theorem Rep.before_grows (h : s.Rep chain) (hg : Grows s s' chain chain') {key : Bytes} {level x : ℕ}
    (hx : s.Before chain key level x) : s'.Before chain' key level x := by
  rcases hx with hx | ⟨hmem, hlt⟩
  · exact .inl hx
  · refine .inr ⟨(hg.chain level).subset hmem, ?_⟩
    rwa [hg.key x (h.le_count level x hmem)]

theorem Grows.putting (hg : Grows s s' chain chain') {c : Splice} {levels : ℕ}
    (hc : s.Putting chain c levels) (hnew : ∀ i, c.node ∈ chain' i → c.node ∈ chain i) :
    s'.Putting chain' c levels where
  pos := hc.pos
  le_count := hc.le_count.trans hg.count
  key_eq := (hg.key _ hc.le_count).trans hc.key_eq
  height_pos := hc.height_pos
  spliced := fun i hi => (hg.chain i).subset (hc.spliced i hi)
  unspliced := fun i hi hmem => hc.unspliced i hi (hnew i hmem)

variable {c : PutCall} {w : Fin n}

/-- What is known of a call stays known, if no step but its own splices or links its node. -/
theorem Rep.callRep_grows (h : s.Rep chain) (hg : Grows s s' chain chain')
    (hc : s.CallRep chain c) (hnew : ∀ a ∈ c.node?, ∀ i, a ∈ chain' i → a ∈ chain i)
    (hnext : ∀ a ∈ c.node?, ∀ i, a ∉ chain i → s'.next i a = s.next i a) : s'.CallRep chain' c := by
  have hbefore : ∀ {key : Bytes} {i x : ℕ}, s.Before chain key i x → s'.Before chain' key i x :=
    h.before_grows hg
  -- the two loads of a search are made with the same knowledge
  have hsearch : ∀ {c : Splice} {again : Bool} {level x : ℕ}, s.CallRep chain (.search c again level x) →
      (∀ i, c.node ∈ chain' i → c.node ∈ chain i) → s'.CallRep chain' (.search c again level x) := by
    intro c again level x hc hnew
    refine ⟨hbefore hc.1, ?_⟩
    cases again with
    | true => exact ⟨hg.putting hc.2.1 hnew, hc.2.2.1, fun i hi => hbefore (hc.2.2.2 i hi)⟩
    | false => exact ⟨hg.putting hc.2.1 hnew, fun i hi hi' => hbefore (hc.2.2 i hi hi')⟩
  cases c with
  | idle => trivial
  | loadHeight c => exact hg.putting hc (hnew _ rfl)
  | casHeight c curr => exact hg.putting hc (hnew _ rfl)
  | loadList c => exact hg.putting hc (hnew _ rfl)
  | search c again level x => exact hsearch hc (hnew _ rfl)
  | reread c again level x => exact hsearch hc (hnew _ rfl)
  | above c level =>
    exact ⟨hg.putting hc.1 (hnew _ rfl), hc.2.1, fun i hi => hbefore (hc.2.2 i hi)⟩
  | link c level =>
    exact ⟨hg.putting hc.1 (hnew _ rfl), hc.2.1, fun i hi => hbefore (hc.2.2 i hi)⟩
  | cas c level =>
    refine ⟨hg.putting hc.1 (hnew _ rfl), hc.2.1, fun i hi => hbefore (hc.2.2.1 i hi), ?_⟩
    exact (hnext _ rfl level (hc.1.unspliced level (le_refl _))).trans hc.2.2.2

theorem CallRep.node (hc : s.CallRep chain c) : ∀ a ∈ c.node?, 0 < a ∧ a ≤ s.count := by
  have hputting : ∀ {c : Splice} {levels : ℕ}, s.Putting chain c levels →
      ∀ a ∈ some c.node, 0 < a ∧ a ≤ s.count := by
    intro c levels h a ha
    cases ha
    exact ⟨h.pos, h.le_count⟩
  cases c with
  | idle => exact fun a ha => by cases ha
  | loadHeight c => exact hputting hc
  | casHeight c curr => exact hputting hc
  | loadList c => exact hputting hc
  | search c again level x =>
    cases again with
    | true => exact hputting hc.2.1
    | false => exact hputting hc.2.1
  | reread c again level x =>
    cases again with
    | true => exact hputting hc.2.1
    | false => exact hputting hc.2.1
  | above c level => exact hputting hc.1
  | link c level => exact hputting hc.1
  | cas c level => exact hputting hc.1

/-- **The frame of a step** of goroutine `w`: what it has to show of the chains, of its own node and of
the place it goes to; all other calls keep what they know. -/
theorem Rep.move (h : s.Rep chain) (hg : Grows s s' chain chain')
    (hcalls : s'.calls = Function.update s.calls w c) (hlinked : ∀ i, Linked (s'.next i) (0 :: chain' i))
    (hnodup : ∀ i, (0 :: chain' i).Nodup) (hle : ∀ i, ∀ v ∈ chain' i, v ≤ s'.count)
    (hnested : ∀ i, ∀ v ∈ chain' (i + 1), v ∈ chain' i) (hc : s'.CallRep chain' c)
    (hnode : ∀ a ∈ c.node?, a ∈ (s.calls w).node? ∨ s.count < a)
    (hown : ∀ i, ∀ v ∈ chain' i, v ∈ chain i ∨ v ∈ (s.calls w).node?)
    (hnext : ∀ i v, 0 < v → v ≤ s.count → v ∉ chain i → v ∉ (s.calls w).node? → s'.next i v = s.next i v)
    (hkeep : ∀ v, v ≤ s'.count → v ∈ (s.calls w).node? ∨ s.count < v → v ∈ c.node? ∨ v ∈ chain' 0) :
    s'.Rep chain' := by
  have hcall : ∀ v, s'.calls v = if v = w then c else s.calls v := fun v => by
    rw [hcalls, Function.update_apply]
  have hother : ∀ v, v ≠ w → ∀ a ∈ (s.calls v).node?, a ∉ (s.calls w).node? := fun v hv a ha =>
    h.apart v w hv a ha
  exact
    { linked := hlinked
      nodup := hnodup
      le_count := hle
      nested := hnested
      calls := fun v => by
        rw [hcall]
        split
        · exact hc
        · next hv =>
          have hrange := CallRep.node (h.calls v)
          refine h.callRep_grows hg (h.calls v) (fun a ha i hmem => ?_) fun a ha i hmem => ?_
          · exact (hown i a hmem).resolve_right (hother v hv a ha)
          · exact hnext i a (hrange a ha).1 (hrange a ha).2 hmem (hother v hv a ha)
      apart := fun v u hne a ha ha' => by
        rw [hcall] at ha ha'
        split at ha
        · next hv =>
          split at ha'
          · next hu => exact hne (hv.trans hu.symm)
          · next hu =>
            have hrange := CallRep.node (h.calls u) a ha'
            rcases hnode a ha with hw | hnew
            · exact hother u hu a ha' hw
            · omega
        · next hv =>
          split at ha'
          · have hrange := CallRep.node (h.calls v) a ha
            rcases hnode a ha' with hw | hnew
            · exact hother v hv a ha hw
            · omega
          · exact h.apart v u hne a ha ha'
      accounted := fun v hv hvle => by
        have hw : v ∈ (s.calls w).node? ∨ s.count < v → v ∈ chain' 0 ∨ ∃ u, v ∈ (s'.calls u).node? := by
          intro hor
          rcases hkeep v hvle hor with hmem | hmem
          · exact .inr ⟨w, by rwa [hcall, if_pos rfl]⟩
          · exact .inl hmem
        by_cases hold : v ≤ s.count
        · rcases h.accounted v hv hold with hin | ⟨u, hu⟩
          · exact .inl ((hg.chain 0).subset hin)
          · by_cases huw : u = w
            · subst huw
              exact hw (.inl hu)
            · exact .inr ⟨u, by rwa [hcall, if_neg huw]⟩
        · exact hw (.inr (Nat.lt_of_not_le hold)) }

/-- A call that moves to a place where all that is asked of it is known, with its node. -/
theorem Rep.goto (h : s.Rep chain) (hc : s.CallRep chain c)
    (hnode : c.node? = (s.calls w).node?) : (s.goto w c).Rep chain := by
  have hg : Grows s (s.goto w c) chain chain := ⟨le_refl _, fun _ _ => rfl, fun _ => List.Sublist.refl _⟩
  refine h.move hg rfl h.linked h.nodup h.le_count h.nested ?_ ?_ (fun i v hv => .inl hv)
    (fun _ _ _ _ _ _ => rfl) ?_
  · exact h.callRep_grows hg hc (fun _ _ _ ha => ha) fun _ _ _ _ => rfl
  · intro a ha
    rw [hnode] at ha
    exact .inl ha
  · intro v hle hor
    rw [hnode]
    exact .inl (hor.resolve_right (Nat.not_lt.mpr hle))

/-- `allocNode` gives a call a node of its own. -/
theorem Rep.alloc (h : s.Rep chain) (hidle : s.calls w = .idle) (key : Bytes) {height : ℕ}
    (hheight : 0 < height) :
    ((s.alloc key).goto w (.loadHeight ⟨s.count + 1, key, height, 0, fun _ => 0, fun _ => none⟩)).Rep chain := by
  have hfresh : ∀ i, s.count + 1 ∉ chain i := fun i hmem => by
    have := h.le_count i _ hmem
    omega
  have hnextv : ∀ i v, v ≠ s.count + 1 → (s.alloc key).next i v = s.next i v := fun i v hv =>
    Function.update_of_ne hv _ _
  refine h.move (w := w) ⟨Nat.le_succ _, fun v hv => ?_, fun _ => List.Sublist.refl _⟩ rfl ?_ h.nodup ?_ h.nested ?_ ?_
    (fun i v hv => .inl hv) ?_ ?_
  · exact Function.update_of_ne (by omega) _ _
  · intro i
    refine (h.linked i).congr fun v hv => hnextv i v ?_
    rintro rfl
    rcases List.mem_cons.mp hv with hv | hv
    · exact absurd hv (Nat.succ_ne_zero _)
    · exact hfresh i hv
  · exact fun i v hv => (h.le_count i v hv).trans (Nat.le_succ _)
  · exact ⟨Nat.succ_pos _, le_refl _, Function.update_self _ _ _, hheight, fun i hi => absurd hi (Nat.not_lt_zero i),
      fun i _ => hfresh i⟩
  · intro a ha
    cases ha
    exact .inr (Nat.lt_succ_self _)
  · exact fun i v _ hv _ _ => hnextv i v (by omega)
  · intro v hv hor
    rcases hor with hor | hor
    · rw [hidle] at hor
      cases hor
    · left
      have hlast : v = s.count + 1 := by
        have hv' : v ≤ s.count + 1 := hv
        omega
      rw [hlast]
      rfl

/-- A call stores its next offset: its node is not in the chain of the level. -/
theorem Rep.link (h : s.Rep chain) {c : Splice} {level : ℕ} (hcall : s.calls w = .link c level) :
    ((s.setNext level c.node (c.next level)).goto w (.cas c level)).Rep chain := by
  have hc : s.CallRep chain (.link c level) := hcall ▸ h.calls w
  obtain ⟨hput, hlt, hknown⟩ := hc
  have hfree : c.node ∉ chain level := hput.unspliced level (le_refl _)
  have hg : Grows s ((s.setNext level c.node (c.next level)).goto w (.cas c level)) chain chain :=
    ⟨le_refl _, fun _ _ => rfl, fun _ => List.Sublist.refl _⟩
  have hown : ∀ v, v ∉ (s.calls w).node? → v ≠ c.node := by
    rintro v hv rfl
    rw [hcall] at hv
    exact hv rfl
  refine h.move hg rfl ?_ h.nodup h.le_count h.nested ?_ ?_ (fun i v hv => .inl hv) ?_ ?_
  · intro i
    refine (h.linked i).congr fun v hv => (next_setNext s _ _ _ i v).trans (if_neg ?_)
    rintro ⟨rfl, rfl⟩
    rcases List.mem_cons.mp hv with hv | hv
    · exact absurd hv (Nat.ne_of_gt hput.pos)
    · exact hfree hv
  · refine ⟨hg.putting hput fun _ ha => ha, hlt, fun i hi => h.before_grows hg (hknown i hi), ?_⟩
    exact (next_setNext s _ _ _ _ _).trans (if_pos ⟨rfl, rfl⟩)
  · intro a ha
    rw [hcall]
    exact .inl ha
  · exact fun i v _ _ _ hv => (next_setNext s _ _ _ i v).trans (if_neg fun hcon => hown v hv hcon.2)
  · intro v hle hor
    rw [hcall] at hor
    exact .inl (hor.resolve_right (Nat.not_lt.mpr hle))

end

/-! ### Splicing -/

/-- The chains after a splice behind `p` on one level. -/
def splice (chain : ℕ → List ℕ) (level p x : ℕ) : ℕ → List ℕ :=
  Function.update chain level (if p = 0 then x :: chain level else insertAfter p x (chain level))

theorem cons_splice (chain : ℕ → List ℕ) (level p x : ℕ) :
    0 :: splice chain level p x level = insertAfter p x (0 :: chain level) := by
  rw [splice, Function.update_self, insertAfter]
  by_cases hp : p = 0
  · rw [if_pos hp, if_pos hp.symm]
  · rw [if_neg hp, if_neg (Ne.symm hp)]

/-- Every chain is in key order. -/
def Sorted (s : SkipList n) (chain : ℕ → List ℕ) : Prop := ∀ i, WeaklyAscending compare s.key (chain i)

section
variable {s s' : SkipList n} {chain chain' : ℕ → List ℕ}

variable {level : ℕ} {c : Splice} {w : Fin n} {x : ℕ} {out : List ℕ} {key : Bytes}

theorem splice_of_ne {p i : ℕ} (hi : i ≠ level) : splice chain level p x i = chain i :=
  Function.update_of_ne hi _ _

/-- **The splice of one level**: the chain is the old one with the node behind its predecessor. -/
theorem Rep.splice (h : s.Rep chain) (hcall : s.calls w = .cas c level)
    (hcas : s.next level (c.prev level) = c.next level) :
    Grows s (s.setNext level (c.prev level) (some c.node)) chain (splice chain level (c.prev level) c.node) ∧
    ((s.setNext level (c.prev level) (some c.node)).goto w
      (if level + 1 < c.height then .link c (level + 1) else .idle)).Rep
        (SkipList.splice chain level (c.prev level) c.node) := by
  have hc : s.CallRep chain (.cas c level) := hcall ▸ h.calls w
  obtain ⟨hput, hlt, hknown, hown⟩ := hc
  have hfree : c.node ∉ 0 :: chain level := by
    rw [List.mem_cons, not_or]
    exact ⟨Nat.ne_of_gt hput.pos, hput.unspliced level (le_refl _)⟩
  have hp : c.prev level ∈ 0 :: chain level := by
    rcases hknown level hlt with hzero | ⟨hmem, -⟩
    · rw [hzero]
      exact List.mem_cons_self
    · exact List.mem_cons_of_mem _ hmem
  set chain' := SkipList.splice chain level (c.prev level) c.node with hchain'
  set s₁ := s.setNext level (c.prev level) (some c.node) with hs₁
  have hnd : (0 :: chain' level).Nodup := by
    rw [hchain', cons_splice]
    exact nodup_insertAfter (h.nodup level) hp hfree
  have hmem : ∀ v, v ∈ chain' level ↔ v = c.node ∨ v ∈ chain level := by
    intro v
    have hcons : v ∈ 0 :: chain' level ↔ v = c.node ∨ v ∈ 0 :: chain level := by
      rw [hchain', cons_splice]
      exact mem_insertAfter hp
    by_cases hv : v = 0
    · subst hv
      refine iff_of_false (List.nodup_cons.mp hnd).1 ?_
      rw [not_or]
      exact ⟨Nat.ne_of_lt hput.pos, h.zero_notMem level⟩
    · rwa [List.mem_cons, List.mem_cons, or_iff_right hv, or_iff_right hv] at hcons
  have hsub : ∀ i, List.Sublist (chain i) (chain' i) := by
    intro i
    by_cases hi : i = level
    · subst hi
      have hcons := sublist_insertAfter (c.prev i) c.node (0 :: chain i)
      rw [← cons_splice] at hcons
      exact List.cons_sublist_cons.mp hcons
    · rw [hchain', splice_of_ne hi]
  have hnew : ∀ i, ∀ v ∈ chain' i, v ∈ chain i ∨ v = c.node ∧ i = level := by
    intro i v hv
    by_cases hi : i = level
    · subst hi
      rcases (hmem v).mp hv with hv | hv
      · exact .inr ⟨hv, rfl⟩
      · exact .inl hv
    · rw [hchain', splice_of_ne hi] at hv
      exact .inl hv
  have hg : Grows s s₁ chain chain' := ⟨le_refl _, fun _ _ => rfl, hsub⟩
  have hnode : c.node ∈ (s.calls w).node? := by
    rw [hcall]
    rfl
  refine ⟨hg, h.move (w := w) ⟨le_refl _, fun _ _ => rfl, hsub⟩ rfl ?_ ?_ ?_ ?_ ?_ ?_ ?_ ?_ ?_⟩
  · intro i
    by_cases hi : i = level
    · subst hi
      rw [hchain', cons_splice]
      have hnext : s₁.next i = Function.update (s.next i) (c.prev i) (some c.node) := Function.update_self _ _ _
      show Linked (s₁.next i) _
      rw [hnext]
      exact (h.linked i).insertAfter (h.nodup i) hfree hp (hown.trans hcas.symm)
    · rw [hchain', splice_of_ne hi]
      exact (h.linked i).congr fun v _ => (next_setNext s _ _ _ i v).trans (if_neg fun hcon => hi hcon.1)
  · intro i
    by_cases hi : i = level
    · exact hi ▸ hnd
    · rw [hchain', splice_of_ne hi]
      exact h.nodup i
  · intro i v hv
    rcases hnew i v hv with hv | ⟨rfl, -⟩
    · exact h.le_count i v hv
    · exact hput.le_count
  · intro i v hv
    rcases hnew (i + 1) v hv with hv | ⟨rfl, hi⟩
    · exact (hsub i).subset (h.nested i v hv)
    · exact (hsub i).subset (hput.spliced i (by omega))
  · split
    · next hmore =>
      refine ⟨⟨hput.pos, hput.le_count, hput.key_eq, hput.height_pos, fun i hi => ?_, fun i hi hin => ?_⟩, hmore,
        fun i hi => h.before_grows ⟨le_refl _, fun _ _ => rfl, hsub⟩ (hknown i hi)⟩
      · rcases Nat.lt_succ_iff_lt_or_eq.mp hi with hi | rfl
        · exact (hsub i).subset (hput.spliced i hi)
        · exact (hmem c.node).mpr (.inl rfl)
      · rcases hnew i _ hin with hin | ⟨-, rfl⟩
        · exact hput.unspliced i (by omega) hin
        · omega
    · trivial
  · intro a ha
    split at ha
    · cases ha
      exact .inl hnode
    · cases ha
  · intro i v hv
    rcases hnew i v hv with hv | ⟨rfl, -⟩
    · exact .inl hv
    · exact .inr hnode
  · intro i v hpos _ hfree' _
    refine (next_setNext s _ _ _ i v).trans (if_neg ?_)
    rintro ⟨rfl, rfl⟩
    rcases List.mem_cons.mp hp with hzero | hin
    · omega
    · exact hfree' hin
  · intro v hle hor
    have hv := hor.resolve_right (Nat.not_lt.mpr hle)
    rw [hcall] at hv
    cases hv
    right
    rcases Nat.eq_zero_or_pos level with rfl | hpos
    · exact (hmem c.node).mpr (.inl rfl)
    · exact (hsub 0).subset (hput.spliced 0 hpos)

theorem stops_iff {nxt : Option ℕ} : s.stops key nxt = true ↔ ∀ y ∈ nxt, compare key (s.key y) ≠ .gt := by
  cases nxt with
  | none => exact iff_of_true rfl fun y hy => by cases hy
  | some y =>
    have hswap : compare key (s.key y) = .gt ↔ compare (s.key y) key = .lt := Std.OrientedCmp.gt_iff_lt
    rw [stops, bne_iff_ne, ne_eq, ← hswap]
    simp

/-- A splice keeps the order exactly if the node it goes in front of is not smaller. -/
theorem Rep.sorted_splice (h : s.Rep chain) (hsorted : s.Sorted chain)
    (hcall : s.calls w = .cas c level) (hcas : s.next level (c.prev level) = c.next level) :
    s.Sorted (SkipList.splice chain level (c.prev level) c.node) ↔ s.stops c.key (c.next level) = true := by
  have hc : s.CallRep chain (.cas c level) := hcall ▸ h.calls w
  obtain ⟨hput, hlt, hknown, -⟩ := hc
  have hlevel : s.Sorted (SkipList.splice chain level (c.prev level) c.node) ↔
      WeaklyAscending compare s.key (SkipList.splice chain level (c.prev level) c.node level) := by
    refine ⟨fun hall => hall level, fun hl i => ?_⟩
    by_cases hi : i = level
    · rwa [hi]
    · rw [splice_of_ne hi]
      exact hsorted i
  rw [hlevel, stops_iff, SkipList.splice, Function.update_self, ← hput.key_eq, ← hcas]
  have hlinked := h.linked level
  have hnd := (List.nodup_cons.mp (h.nodup level)).2
  rcases hknown level hlt with hzero | ⟨hmem, hless⟩
  · rw [if_pos hzero, hzero, hlinked.1]
    refine ⟨fun hasc y hy => ?_, fun hall => weaklyAscending_cons (hsorted level) hall⟩
    exact (List.pairwise_cons.mp hasc).1 y (List.mem_of_head? hy)
  · have hpos : c.prev level ≠ 0 := fun hzero => h.zero_notMem level (hzero ▸ hmem)
    rw [if_neg hpos]
    refine ⟨fun hasc y hy hgt => ?_, fun hall => ?_⟩
    · exact not_weaklyAscending_insertAfter hlinked.2 hnd hmem hy hgt hasc
    · refine weaklyAscending_insertAfter (hsorted level) hlinked.2 hnd hmem ?_ hall
      rw [hput.key_eq, hless]
      exact Ordering.noConfusion

/-- The order of what was there, read off the order of what is there now. -/
theorem Rep.sorted_of_grows (h : s.Rep chain) (hg : Grows s s' chain chain') (hsorted : s'.Sorted chain') :
    s.Sorted chain := by
  intro i
  have hold : WeaklyAscending compare s'.key (chain i) := (hsorted i).of_sublist (hg.chain i)
  refine List.Pairwise.imp_of_mem (fun {a b} ha hb hab => ?_) hold
  rwa [hg.key a (h.le_count i a ha), hg.key b (h.le_count i b hb)] at hab

theorem Rep.sorted_grows (h : s.Rep chain) (hg : Grows s s' chain chain) (hsorted : s.Sorted chain) :
    s'.Sorted chain := by
  intro i
  refine List.Pairwise.imp_of_mem (fun {a b} ha hb hab => ?_) (hsorted i)
  rwa [hg.key a (h.le_count i a ha), hg.key b (h.le_count i b hb)]

/-! ### One step -/

/-- The place behind the descent, once every level of the list has its predecessor. -/
theorem callRep_afterDescent (hput : s.Putting chain c 0) (hknown : s.Known chain c c.listHeight) :
    s.CallRep chain (afterDescent c) ∧ (afterDescent c).node? = some c.node := by
  rw [afterDescent]
  split
  · next hlt => exact ⟨⟨hput, hlt, hknown⟩, rfl⟩
  · next hge => exact ⟨⟨hput, hput.height_pos, fun i hi => hknown i (by omega)⟩, rfl⟩

/-- Recording a predecessor changes nothing else of what a call knows. -/
theorem Putting.found {levels : ℕ} (hput : s.Putting chain c levels) (level x : ℕ) (nxt : Option ℕ) :
    s.Putting chain (c.found level x nxt) levels :=
  ⟨hput.pos, hput.le_count, hput.key_eq, hput.height_pos, hput.spliced, hput.unspliced⟩

theorem before_found (hx : s.Before chain c.key level x) (nxt : Option ℕ) {i : ℕ}
    (hi : i ≠ level → s.Before chain c.key i (c.prev i)) :
    s.Before chain (c.found level x nxt).key i ((c.found level x nxt).prev i) := by
  show s.Before chain c.key i (Function.update c.prev level x i)
  by_cases h : i = level
  · subst h
    rwa [Function.update_self]
  · rw [Function.update_of_ne h]
    exact hi h

theorem Rep.withHeight (h : s.Rep chain) (height : ℕ) : ({ s with height := height } : SkipList n).Rep chain := by
  have hg : Grows s { s with height := height } chain chain :=
    ⟨le_refl _, fun _ _ => rfl, fun _ => List.Sublist.refl _⟩
  exact ⟨h.linked, h.nodup, h.le_count, h.nested,
    fun w => h.callRep_grows hg (h.calls w) (fun _ _ _ ha => ha) fun _ _ _ _ => rfl, h.apart, h.accounted⟩

/-- The search goes on from a smaller node that it loads. -/
theorem Rep.before_next (h : s.Rep chain) {y : ℕ} (hx : s.Before chain key level x)
    (hy : s.next level x = some y) (hsmaller : ¬ s.stops key (some y) = true) : s.Before chain key level y := by
  have hlinked := h.linked level
  have hmem : y ∈ chain level := by
    rcases hx with hzero | ⟨hmem, -⟩
    · rw [hzero, hlinked.1] at hy
      exact List.mem_of_head? hy
    · exact hlinked.2.mem hmem hy
  refine .inr ⟨hmem, ?_⟩
  rw [stops] at hsmaller
  simpa using hsmaller

/-- A place to search from on one level is one on the level below. -/
theorem Rep.before_below (h : s.Rep chain) (hx : s.Before chain key (level + 1) x) :
    s.Before chain key level x := by
  rcases hx with hzero | ⟨hmem, hlt⟩
  · exact .inl hzero
  · exact .inr ⟨h.nested level x hmem, hlt⟩

/-- A step that leaves the chains alone has a call that is not at its splice, or whose splice fails. -/
def Quiet (s : SkipList n) (chain : ℕ → List ℕ) (a : PutStep n) (s' : SkipList n) : Prop :=
  s'.Rep chain ∧ Grows s s' chain chain ∧ s.Ordered a

theorem Rep.quiet_goto (h : s.Rep chain) {c₀ c : PutCall} (hcall : s.calls w = c₀) (hc : s.CallRep chain c)
    (hnode : c.node? = c₀.node?) (hord : s.OrderedCall c₀) : s.Quiet chain (.go w) (s.goto w c) := by
  subst hcall
  exact ⟨h.goto hc hnode, ⟨le_refl _, fun _ _ => rfl, fun _ => List.Sublist.refl _⟩, hord⟩

/-- The steps of a search, on the descent or after a splice that failed. -/
theorem Rep.quiet_search (h : s.Rep chain) {again : Bool}
    (hcall : s.calls w = .search c again level x) (hstep : s.step (.go w) = some (s', out)) :
    s.Quiet chain (.go w) s' := by
  have hc : s.CallRep chain (.search c again level x) := hcall ▸ h.calls w
  simp only [SkipList.step, hcall] at hstep
  split at hstep
  · cases hstep
    exact h.quiet_goto hcall (c := .reread c again level x) hc rfl trivial
  · next y hy =>
    split at hstep
    · cases hstep
      exact h.quiet_goto hcall (c := .reread c again level x) hc rfl trivial
    · next hsmaller =>
      cases hstep
      have hnext := h.before_next hc.1 hy hsmaller
      exact h.quiet_goto hcall (c := .search c again level y) ⟨hnext, hc.2⟩ rfl trivial

/-- The second load of a search, which records the predecessor and the successor. -/
theorem Rep.quiet_reread (h : s.Rep chain) {again : Bool}
    (hcall : s.calls w = .reread c again level x) (hstep : s.step (.go w) = some (s', out)) :
    s.Quiet chain (.go w) s' := by
  have hc : s.CallRep chain (.reread c again level x) := hcall ▸ h.calls w
  obtain ⟨hx, hrest⟩ := hc
  simp only [SkipList.step, hcall] at hstep
  cases again with
  | true =>
    obtain ⟨hput, hlt, hknown⟩ := hrest
    rw [if_pos rfl] at hstep
    cases hstep
    exact h.quiet_goto hcall (c := .link (c.found level x (s.next level x)) level)
      ⟨hput.found .., hlt, fun i hi => before_found hx _ fun _ => hknown i hi⟩ rfl trivial
  | false =>
    obtain ⟨hput, habove⟩ := hrest
    rw [if_neg Bool.false_ne_true] at hstep
    cases level with
    | zero =>
      cases hstep
      obtain ⟨hrep, hnode⟩ := callRep_afterDescent (hput.found 0 x (s.next 0 x)) fun i hi =>
        before_found hx _ fun hne => habove i (Nat.pos_of_ne_zero hne) hi
      exact h.quiet_goto hcall hrep hnode trivial
    | succ below =>
      cases hstep
      refine h.quiet_goto hcall (c := .search (c.found (below + 1) x _) false below x)
        ⟨h.before_below hx, hput.found .., fun i hi hi' => ?_⟩ rfl trivial
      exact before_found hx _ fun hne => habove i (by omega) hi'

/-- The levels above the list: the head is the predecessor. -/
theorem Rep.quiet_above (h : s.Rep chain)
    (hcall : s.calls w = .above c level) (hstep : s.step (.go w) = some (s', out)) : s.Quiet chain (.go w) s' := by
  have hc : s.CallRep chain (.above c level) := hcall ▸ h.calls w
  obtain ⟨hput, hlt, hknown⟩ := hc
  have hfound : ∀ i, i ≤ level → s.Before chain (c.found level 0 (s.next level 0)).key i
      ((c.found level 0 (s.next level 0)).prev i) := fun i hi =>
    before_found (.inl rfl) _ fun hne => hknown i (by omega)
  simp only [SkipList.step, hcall] at hstep
  split at hstep
  · next hmore =>
    cases hstep
    exact h.quiet_goto hcall (c := .above (c.found level 0 _) (level + 1))
      ⟨hput.found .., hmore, fun i hi => hfound i (by omega)⟩ rfl trivial
  · next hlast =>
    have hheight : (c.found level 0 (s.next level 0)).height = c.height := rfl
    cases hstep
    exact h.quiet_goto hcall (c := .link (c.found level 0 _) 0)
      ⟨hput.found .., hput.height_pos, fun i hi => hfound i (by omega)⟩ rfl trivial

/-- The steps before the descent. -/
theorem Rep.quiet_loads (h : s.Rep chain) (hstep : s.step (.go w) = some (s', out))
    (hcall : (∃ c, s.calls w = .loadHeight c) ∨ (∃ c curr, s.calls w = .casHeight c curr) ∨
      ∃ c, s.calls w = .loadList c) : s.Quiet chain (.go w) s' := by
  have hc := h.calls w
  rcases hcall with ⟨c, hcall⟩ | ⟨c, curr, hcall⟩ | ⟨c, hcall⟩
  · rw [hcall] at hc
    simp only [SkipList.step, hcall] at hstep
    split at hstep
    · cases hstep
      exact h.quiet_goto hcall (c := .loadList c) hc rfl trivial
    · cases hstep
      exact h.quiet_goto hcall (c := .casHeight c s.height) hc rfl trivial
  · rw [hcall] at hc
    simp only [SkipList.step, hcall] at hstep
    split at hstep
    · cases hstep
      have hput : ({ s with height := c.height } : SkipList n).Putting chain c 0 :=
        ⟨hc.pos, hc.le_count, hc.key_eq, hc.height_pos, hc.spliced, hc.unspliced⟩
      have hrep := (h.withHeight c.height).goto (w := w) (c := .loadList c) hput (by rw [hcall]; rfl)
      refine ⟨hrep, ⟨le_refl _, fun _ _ => rfl, fun _ => List.Sublist.refl _⟩, ?_⟩
      rw [Ordered, hcall]
      trivial
    · cases hstep
      exact h.quiet_goto hcall (c := .loadHeight c) hc rfl trivial
  · rw [hcall] at hc
    have hput : s.Putting chain { c with listHeight := s.height } 0 :=
      ⟨hc.pos, hc.le_count, hc.key_eq, hc.height_pos, hc.spliced, hc.unspliced⟩
    simp only [SkipList.step, hcall] at hstep
    split at hstep
    · next hzero =>
      cases hstep
      obtain ⟨hrep, hnode⟩ := callRep_afterDescent hput fun i hi => absurd hi (by
        show ¬ i < s.height
        omega)
      exact h.quiet_goto hcall hrep hnode trivial
    · next level hlevel =>
      cases hstep
      refine h.quiet_goto hcall (c := .search _ false level 0) ⟨.inl rfl, hput, fun i hi hi' => ?_⟩
        rfl trivial
      have hi'' : i < s.height := hi'
      omega

/-- **One atomic operation** keeps the invariant, and keeps the order exactly if it is `Ordered`. -/
theorem Rep.step (h : s.Rep chain) {a : PutStep n} (hstep : s.step a = some (s', out)) :
    ∃ chain', s'.Rep chain' ∧ Grows s s' chain chain' ∧ (s.Sorted chain → (s'.Sorted chain' ↔ s.Ordered a)) := by
  -- all steps but a splice leave the chains as they are
  have hkeep : s.Quiet chain a s' →
      ∃ chain', s'.Rep chain' ∧ Grows s s' chain chain' ∧ (s.Sorted chain → (s'.Sorted chain' ↔ s.Ordered a)) :=
    fun hq => ⟨chain, hq.1, hq.2.1, fun hsorted => iff_of_true (h.sorted_grows hq.2.1 hsorted) hq.2.2⟩
  cases a with
  | put w key height =>
    cases hcall : s.calls w with
    | idle =>
      simp only [SkipList.step, hcall] at hstep
      split at hstep
      · next hheight =>
        cases hstep
        refine hkeep ⟨h.alloc hcall key hheight.1, ⟨Nat.le_succ _, fun v hv => ?_,
          fun _ => List.Sublist.refl _⟩, trivial⟩
        exact Function.update_of_ne (by omega) _ _
      · cases hstep
    | _ => simp [SkipList.step, hcall] at hstep
  | go w =>
    cases hcall : s.calls w with
    | idle => simp [SkipList.step, hcall] at hstep
    | loadHeight c => exact hkeep (h.quiet_loads hstep (.inl ⟨c, hcall⟩))
    | casHeight c curr => exact hkeep (h.quiet_loads hstep (.inr (.inl ⟨c, curr, hcall⟩)))
    | loadList c => exact hkeep (h.quiet_loads hstep (.inr (.inr ⟨c, hcall⟩)))
    | search c again level x => exact hkeep (h.quiet_search hcall hstep)
    | reread c again level x => exact hkeep (h.quiet_reread hcall hstep)
    | above c level => exact hkeep (h.quiet_above hcall hstep)
    | link c level =>
      simp only [SkipList.step, hcall] at hstep
      cases hstep
      refine hkeep ⟨h.link hcall, ⟨le_refl _, fun _ _ => rfl, fun _ => List.Sublist.refl _⟩, ?_⟩
      rw [Ordered, hcall]
      trivial
    | cas c level =>
      have hc : s.CallRep chain (.cas c level) := hcall ▸ h.calls w
      simp only [SkipList.step, hcall] at hstep
      split at hstep
      · next hcas =>
        obtain ⟨hg, hrep⟩ := h.splice hcall hcas
        have hs' : s' = (s.setNext level (c.prev level) (some c.node)).goto w
            (if level + 1 < c.height then .link c (level + 1) else .idle) := by
          split at hstep
          · next hmore =>
            cases hstep
            rw [if_pos hmore]
          · next hlast =>
            cases hstep
            rw [if_neg hlast]
        rw [hs']
        refine ⟨_, hrep, ⟨hg.count, hg.key, hg.chain⟩, fun hsorted => ?_⟩
        rw [Ordered, hcall]
        refine (h.sorted_splice hsorted hcall hcas).trans ⟨fun hstops _ => hstops, fun hord => hord hcas⟩
      · next hcas =>
        cases hstep
        obtain ⟨hput, hlt, hknown, -⟩ := hc
        exact hkeep (h.quiet_goto hcall (c := .search c true level _) ⟨hknown level hlt, hput, hlt, hknown⟩
          rfl fun heq => absurd heq hcas)

/-! ### Whole runs -/

theorem rep_boot (n : ℕ) : (boot n).Rep fun _ => [] where
  linked := fun _ => ⟨rfl, trivial⟩
  nodup := fun _ => List.nodup_singleton 0
  le_count := fun _ v hv => by cases hv
  nested := fun _ v hv => by cases hv
  calls := fun _ => trivial
  apart := fun _ _ _ a ha => by cases ha
  accounted := fun v hv hle => absurd hv (Nat.not_lt.mpr hle)

/-- **The whole run**: it keeps the invariant, and the order exactly if all its steps are `Ordered`. A
splice out of order stays in the list for good. -/
theorem Rep.run (h : s.Rep chain) {steps : List (PutStep n)} {log : List ℕ}
    (hrun : Lib.run SkipList.step s steps = some (s', log)) :
    ∃ chain', s'.Rep chain' ∧ Grows s s' chain chain' ∧
      (s.Sorted chain → (s'.Sorted chain' ↔ Meets SkipList.step Ordered s steps)) := by
  induction steps generalizing s chain log with
  | nil =>
    cases hrun
    exact ⟨chain, h, .refl _ chain, fun hsorted => iff_of_true hsorted trivial⟩
  | cons a rest ih =>
    obtain ⟨s₁, out, log', hstep, hrest, -⟩ := run_cons_some hrun
    obtain ⟨chain₁, hrep₁, hg₁, hiff₁⟩ := h.step hstep
    obtain ⟨chain₂, hrep₂, hg₂, hiff₂⟩ := ih hrep₁ hrest
    refine ⟨chain₂, hrep₂, hg₁.trans hg₂, fun hsorted => ?_⟩
    rw [meets_cons hstep, ← hiff₁ hsorted]
    refine ⟨fun hlast => ?_, fun hmeets => (hiff₂ hmeets.1).mpr hmeets.2⟩
    have hsorted₁ := hrep₁.sorted_of_grows hg₂ hlast
    exact ⟨hsorted₁, (hiff₂ hsorted₁).mp hlast⟩

end

/-- Level 0 visits every node once in key order, and every level is a sorted subset of it. -/
def InOrder (s : SkipList n) : Prop :=
  ∃ chain : ℕ → List ℕ, (∀ i, Linked (s.next i) (0 :: chain i)) ∧ (chain 0).Nodup ∧
    (∀ v, v ∈ chain 0 ↔ 0 < v ∧ v ≤ s.count) ∧ s.Sorted chain ∧ ∀ i, chain i ⊆ chain 0

theorem Rep.subset_zero {s : SkipList n} {chain : ℕ → List ℕ} (h : s.Rep chain) (i : ℕ) : chain i ⊆ chain 0 := by
  induction i with
  | zero => exact List.Subset.refl _
  | succ i ih => exact List.Subset.trans (h.nested i) ih

/-- Once all calls have returned, the list is in order exactly if its chains are sorted. -/
theorem Rep.inOrder_iff {s : SkipList n} {chain : ℕ → List ℕ} (h : s.Rep chain) (hidle : ∀ w, s.calls w = .idle) :
    s.InOrder ↔ s.Sorted chain := by
  constructor
  · rintro ⟨chain', hlinked, -, -, hsorted, -⟩ i
    rw [(h.linked i).unique (hlinked i)]
    exact hsorted i
  · intro hsorted
    refine ⟨chain, h.linked, (List.nodup_cons.mp (h.nodup 0)).2, fun v => ⟨fun hv => ?_, fun hv => ?_⟩, hsorted,
      h.subset_zero⟩
    · exact ⟨Nat.pos_of_ne_zero fun hzero => h.zero_notMem 0 (hzero ▸ hv), h.le_count 0 v hv⟩
    · rcases h.accounted v hv.1 hv.2 with hmem | ⟨w, hw⟩
      · exact hmem
      · rw [hidle w] at hw
        cases hw

/-- **The order of the list.** Any number of goroutines put any keys at any heights, their atomic operations
interleaved in any way. When all calls have returned, level 0 visits every node once in key order and the
other levels are sorted subsets of it, exactly if every splice of the run went in front of a node that is
not smaller. -/
theorem puts_inOrder_iff {s : SkipList n} {steps : List (PutStep n)} {log : List ℕ}
    (hrun : run step (boot n) steps = some (s, log)) (hidle : ∀ w, s.calls w = .idle) :
    s.InOrder ↔ Meets step Ordered (boot n) steps := by
  obtain ⟨chain, hrep, -, hiff⟩ := (rep_boot n).run hrun
  rw [hrep.inOrder_iff hidle]
  exact hiff fun _ => List.Pairwise.nil

instance (s : SkipList n) (c : PutCall) : Decidable (s.OrderedCall c) :=
  match c with
  | .cas c level =>
    inferInstanceAs (Decidable (s.next level (c.prev level) = c.next level → s.stops c.key (c.next level) = true))
  | .idle | .loadHeight _ | .casHeight _ _ | .loadList _ | .search _ _ _ _ | .reread _ _ _ _ | .above _ _
  | .link _ _ => isTrue trivial

instance (s : SkipList n) (a : PutStep n) : Decidable (s.Ordered a) :=
  match a with
  | .put _ _ _ => isTrue trivial
  | .go w => inferInstanceAs (Decidable (s.OrderedCall (s.calls w)))

/-- Two nodes put at once: the smaller one is spliced in first, and the other's splice fails once. -/
def orderlyPuts : List (PutStep 2) :=
  [.put 0 [5] 1, .go 0, .go 0, .go 0, .go 0] ++ [.put 1 [3] 2] ++ List.replicate 11 (.go 1) ++
    List.replicate 7 (.go 0)

theorem puts_inOrder_iff_on_orderlyPuts :
    ∃ s log, run step (boot 2) orderlyPuts = some (s, log) ∧ (∀ w, s.calls w = .idle) ∧ s.InOrder := by
  have hok : ((run step (boot 2) orderlyPuts).any fun p => decide (∀ w, (p.1.calls w).node? = none)) = true := by
    decide +kernel
  have hordered : Meets step Ordered (boot 2) orderlyPuts := by decide +kernel
  cases hrun : run step (boot 2) orderlyPuts with
  | none =>
    rw [hrun] at hok
    cases hok
  | some p =>
    rw [hrun] at hok
    have hidle : ∀ w, p.1.calls w = .idle := fun w => PutCall.eq_idle (of_decide_eq_true hok w)
    exact ⟨p.1, p.2, rfl, hidle, (puts_inOrder_iff hrun hidle).mpr hordered⟩

/-- The search for 5 stops at the head, which has no successor; 3 goes in; the second load of the head
gives 3 as the node to splice in front of. -/
def overtakenPut : List (PutStep 2) :=
  [.put 0 [5] 1, .go 0, .go 0, .go 0] ++ [.put 1 [3] 1] ++ List.replicate 6 (.go 1) ++ List.replicate 3 (.go 0)

/-- **5 before 3**: both calls have returned, and level 0 is not in key order. -/
theorem five_before_three :
    ∃ s log, run step (boot 2) overtakenPut = some (s, log) ∧ (∀ w, s.calls w = .idle) ∧
      Linked (s.next 0) [0, 1, 2] ∧ s.key 1 = [5] ∧ s.key 2 = [3] ∧ ¬ s.InOrder := by
  have hok : ((run step (boot 2) overtakenPut).any fun p => decide ((∀ w, (p.1.calls w).node? = none) ∧
      (p.1.next 0 0 = some 1 ∧ p.1.next 0 1 = some 2 ∧ p.1.next 0 2 = none) ∧
      p.1.key 1 = [5] ∧ p.1.key 2 = [3])) = true := by decide +kernel
  cases hrun : run step (boot 2) overtakenPut with
  | none =>
    rw [hrun] at hok
    cases hok
  | some p =>
    rw [hrun] at hok
    obtain ⟨hidle, ⟨h₀, h₁, h₂⟩, hfive, hthree⟩ := of_decide_eq_true hok
    have hlinked : Linked (p.1.next 0) [0, 1, 2] := ⟨h₀, h₁, h₂, trivial⟩
    refine ⟨p.1, p.2, rfl, fun w => PutCall.eq_idle (hidle w), hlinked, hfive, hthree, ?_⟩
    rintro ⟨chain, hall, -, -, hsorted, -⟩
    have hchain : [1, 2] = chain 0 := hlinked.unique (hall 0)
    have hpair := hsorted 0
    rw [← hchain] at hpair
    have hle := (List.pairwise_cons.mp hpair).1 2 List.mem_cons_self
    rw [hfive, hthree] at hle
    exact hle (by decide)

end SkipList

end Sovereign.Database
