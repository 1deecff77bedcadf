import Sovereign.Lib.Run
import Sovereign.Database.MemTable

/-!
# Racing allocations in the skip-list arena

`allocNode` of `skiplist_arena.go`, as any number of goroutines run it: nodes grow upwards from the
head, key and value bytes downwards from the end, each behind its own counter, and each counter is
moved by a load, a check and a compare-and-swap.

* `NodeAllocator.Inv` holds in every state reached: node regions are disjoint, data regions are
  disjoint, and the data of an allocation is above its own node.
* A call checks its data against its own node only.  `Clear` is the check that is missing, against
  the nodes of the allocations made before; `Inv.placed_iff` says that it is exactly what is
  missing.

Lengths and offsets are 32-bit words as in the source.  The bytes of a region are written by its owner
after the call has returned and are not part of the state.
-/

namespace Sovereign.Database

open Lib

structure AllocRequest where
  keyLen : UInt32
  valLen : UInt32
deriving DecidableEq

def AllocRequest.bytes (r : AllocRequest) : ℕ := r.keyLen.toNat + r.valLen.toNat

/-- What `allocNode` returns, with the lengths it was called with. -/
structure Allocation where
  nodeOff : UInt32
  dataOff : UInt32
  request : AllocRequest
deriving DecidableEq

namespace Allocation

def nodeEnd (p : Allocation) : ℕ := p.nodeOff.toNat + nodeSize

def dataEnd (p : Allocation) : ℕ := p.dataOff.toNat + p.request.bytes

def nodeBytes (p : Allocation) : Set ℕ := Set.Ico p.nodeOff.toNat p.nodeEnd

def dataBytes (p : Allocation) : Set ℕ := Set.Ico p.dataOff.toNat p.dataEnd

end Allocation

/-- Regions of different allocations share no byte, nor do the two regions of one, and all of them are
inside the arena. -/
structure Placed (arenaLen : ℕ) (ps : List Allocation) : Prop where
  inside : ∀ p ∈ ps, p.nodeBytes ∪ p.dataBytes ⊆ Set.Iio arenaLen
  own : ∀ p ∈ ps, Disjoint p.nodeBytes p.dataBytes
  apart : ps.Pairwise fun p q => Disjoint (p.nodeBytes ∪ p.dataBytes) (q.nodeBytes ∪ q.dataBytes)

/-- Where a goroutine is in `allocNode`. -/
inductive AllocCall where
  | idle
  | loadTop (r : AllocRequest)
  | casTop (r : AllocRequest) (currTop : UInt32)
  | loadBottom (r : AllocRequest) (nodeOff : UInt32)
  | casBottom (r : AllocRequest) (nodeOff currDataBottom : UInt32)
deriving DecidableEq

def AllocCall.held : AllocCall → Option UInt32
  | .loadBottom _ nodeOff => some nodeOff
  | .casBottom _ nodeOff _ => some nodeOff
  | _ => none

/-- The counters of the arena, the calls of `n` goroutines, and the allocations returned so far. -/
structure NodeAllocator (n : ℕ) where
  arenaLen : UInt32
  nodeTop : UInt32
  dataBottom : UInt32
  calls : Fin n → AllocCall
  placed : List Allocation

/-- A goroutine calls `allocNode`, or takes the next atomic operation of its call. -/
inductive AllocStep (n : ℕ) where
  | call (w : Fin n) (r : AllocRequest)
  | go (w : Fin n)
deriving DecidableEq

namespace NodeAllocator

variable {n : ℕ} {nodeOff : UInt32} {a : AllocStep n} {steps : List (AllocStep n)}

/-- `NewSkipListArena`: the head takes the first node. -/
def boot (n : ℕ) (arenaLen : UInt32) : NodeAllocator n :=
  ⟨arenaLen, UInt32.ofNat nodeSize, arenaLen, fun _ => .idle, []⟩

def goto (s : NodeAllocator n) (w : Fin n) (c : AllocCall) : NodeAllocator n :=
  { s with calls := Function.update s.calls w c }

/-- The allocation that takes the bytes below `bottom`. -/
def below (r : AllocRequest) (nodeOff bottom : UInt32) : Allocation :=
  ⟨nodeOff, bottom - (r.keyLen + r.valLen), r⟩

def place (s : NodeAllocator n) (w : Fin n) (p : Allocation) : NodeAllocator n :=
  { s with dataBottom := p.dataOff, placed := s.placed ++ [p] }.goto w .idle

/-- One atomic operation, and what a call that ends returns; `none` is `ErrArenaFull`. -/
def step (s : NodeAllocator n) : AllocStep n → Option (NodeAllocator n × List (Option Allocation))
  | .call w r =>
    match s.calls w with
    | .idle => some (s.goto w (.loadTop r), [])
    | _ => none
  | .go w =>
    match s.calls w with
    | .idle => none
    | .loadTop r =>
      if s.nodeTop + UInt32.ofNat nodeSize > s.arenaLen then some (s.goto w .idle, [none])
      else some (s.goto w (.casTop r s.nodeTop), [])
    | .casTop r currTop =>
      if s.nodeTop = currTop then
        some ({ s with nodeTop := currTop + UInt32.ofNat nodeSize }.goto w (.loadBottom r currTop), [])
      else some (s.goto w (.loadTop r), [])
    | .loadBottom r nodeOff =>
      if s.dataBottom < r.keyLen + r.valLen then some (s.goto w .idle, [none])
      else if nodeOff + UInt32.ofNat nodeSize > s.dataBottom - (r.keyLen + r.valLen) then
        some (s.goto w .idle, [none])
      else some (s.goto w (.casBottom r nodeOff s.dataBottom), [])
    | .casBottom r nodeOff currDataBottom =>
      if s.dataBottom = currDataBottom then
        some (s.place w (below r nodeOff currDataBottom), [some (below r nodeOff currDataBottom)])
      else some (s.goto w (.loadBottom r nodeOff), [])

def Fits (s : NodeAllocator n) : AllocStep n → Prop
  | .call _ r => r.bytes ≤ s.arenaLen.toNat
  | .go _ => True

/-- The data a call is about to reserve is above the node of every allocation made before. -/
def ClearCall (s : NodeAllocator n) : AllocCall → Prop
  | .casBottom r _ currDataBottom =>
    s.dataBottom = currDataBottom → ∀ p ∈ s.placed, p.nodeEnd + r.bytes ≤ currDataBottom.toNat
  | _ => True

/-- The check that `allocNode` does not make. -/
def Clear (s : NodeAllocator n) : AllocStep n → Prop
  | .call _ _ => True
  | .go w => s.ClearCall (s.calls w)

instance (s : NodeAllocator n) : ∀ a, Decidable (s.Fits a)
  | .call _ r => inferInstanceAs (Decidable (r.bytes ≤ s.arenaLen.toNat))
  | .go _ => isTrue trivial

instance (s : NodeAllocator n) : ∀ c, Decidable (s.ClearCall c)
  | .idle => isTrue trivial
  | .loadTop _ => isTrue trivial
  | .casTop _ _ => isTrue trivial
  | .loadBottom _ _ => isTrue trivial
  | .casBottom r _ currDataBottom => inferInstanceAs (Decidable
      (s.dataBottom = currDataBottom → ∀ p ∈ s.placed, p.nodeEnd + r.bytes ≤ currDataBottom.toNat))

instance (s : NodeAllocator n) : ∀ a, Decidable (s.Clear a)
  | .call _ _ => isTrue trivial
  | .go w => inferInstanceAs (Decidable (s.ClearCall (s.calls w)))

/-! ### What holds in every state -/

def CallOk (s : NodeAllocator n) : AllocCall → Prop
  | .idle => True
  | .loadTop r => r.bytes ≤ s.arenaLen.toNat
  | .casTop r currTop => r.bytes ≤ s.arenaLen.toNat ∧ currTop.toNat + nodeSize ≤ s.arenaLen.toNat
  | .loadBottom r _ => r.bytes ≤ s.arenaLen.toNat
  | .casBottom r nodeOff currDataBottom =>
    r.bytes ≤ s.arenaLen.toNat ∧ nodeOff.toNat + nodeSize + r.bytes ≤ currDataBottom.toNat

/-- A node that has been reserved: below the top, at a multiple of the node size. -/
def Reserved (s : NodeAllocator n) (nodeOff : UInt32) : Prop :=
  nodeOff.toNat + nodeSize ≤ s.nodeTop.toNat ∧ nodeSize ∣ nodeOff.toNat

structure Inv (s : NodeAllocator n) : Prop where
  small : s.arenaLen.toNat + nodeSize < 2 ^ 32
  top_dvd : nodeSize ∣ s.nodeTop.toNat
  top_small : s.nodeTop.toNat + nodeSize < 2 ^ 32
  bottom_le : s.dataBottom.toNat ≤ s.arenaLen.toNat
  calls : ∀ w, s.CallOk (s.calls w)
  held : ∀ w, ∀ o ∈ (s.calls w).held, s.Reserved o
  held_ne : ∀ w v, w ≠ v → ∀ o ∈ (s.calls w).held, o ∉ (s.calls v).held
  held_fresh : ∀ w, ∀ o ∈ (s.calls w).held, ∀ p ∈ s.placed, p.nodeOff ≠ o
  reserved : ∀ p ∈ s.placed, s.Reserved p.nodeOff
  above : ∀ p ∈ s.placed, p.nodeEnd ≤ p.dataOff.toNat ∧ s.dataBottom.toNat ≤ p.dataOff.toNat ∧
    p.dataEnd ≤ s.arenaLen.toNat
  nodes_ne : s.placed.Pairwise fun p q => p.nodeOff ≠ q.nodeOff
  data_below : s.placed.Pairwise fun p q => q.dataEnd ≤ p.dataOff.toNat

theorem calls_goto (s : NodeAllocator n) (w : Fin n) (c : AllocCall) (v : Fin n) :
    (s.goto w c).calls v = if v = w then c else s.calls v := Function.update_apply s.calls w c v

theorem inv_boot {arenaLen : UInt32} (hsmall : arenaLen.toNat + nodeSize < 2 ^ 32) :
    Inv (boot n arenaLen) where
  small := hsmall
  top_dvd := by
    show nodeSize ∣ nodeSize
    exact Nat.dvd_refl _
  top_small := by
    show nodeSize + nodeSize < 2 ^ 32
    decide
  bottom_le := le_refl _
  calls := fun _ => trivial
  held := fun _ _ ho => by cases ho
  held_ne := fun _ _ _ _ ho => by cases ho
  held_fresh := fun _ _ ho => by cases ho
  reserved := fun _ hp => by cases hp
  above := fun _ hp => by cases hp
  nodes_ne := List.Pairwise.nil
  data_below := List.Pairwise.nil

variable {s : NodeAllocator n} {w : Fin n} {r : AllocRequest} {s' : NodeAllocator n}
  {out : List (Option Allocation)}

/-- A call that moves without touching a counter, and holds no other node than before. -/
theorem Inv.goto (h : Inv s) {c : AllocCall} (hok : s.CallOk c)
    (hheld : ∀ o ∈ c.held, o ∈ (s.calls w).held) : Inv (s.goto w c) := by
  have hmem : ∀ v, ∀ o ∈ ((s.goto w c).calls v).held, o ∈ (s.calls v).held := by
    intro v o ho
    rw [calls_goto] at ho
    split at ho
    · next hv =>
      rw [hv]
      exact hheld o ho
    · exact ho
  exact
    { h with
      calls := fun v => by
        rw [calls_goto]
        split
        · exact hok
        · exact h.calls v
      held := fun v o ho => h.held v o (hmem v o ho)
      held_ne := fun v u hne o ho ho' => h.held_ne v u hne o (hmem v o ho) (hmem u o ho')
      held_fresh := fun v o ho => h.held_fresh v o (hmem v o ho) }

theorem toNat_nodeSize : (UInt32.ofNat nodeSize).toNat = nodeSize := rfl

theorem Inv.toNat_dataLen (h : Inv s)
    (hr : r.bytes ≤ s.arenaLen.toNat) : (r.keyLen + r.valLen).toNat = r.bytes := by
  have hsmall := h.small
  rw [UInt32.toNat_add, AllocRequest.bytes]
  rw [AllocRequest.bytes] at hr
  exact Nat.mod_eq_of_lt (by omega)

/-- The compare-and-swap of `nodeTop` reserves a node above all others. -/
theorem Inv.reserveNode (h : Inv s) (hcall : s.calls w = .casTop r s.nodeTop) :
    Inv ({ s with nodeTop := s.nodeTop + UInt32.ofNat nodeSize }.goto w (.loadBottom r s.nodeTop)) := by
  obtain ⟨hr, hroom⟩ : r.bytes ≤ s.arenaLen.toNat ∧ s.nodeTop.toNat + nodeSize ≤ s.arenaLen.toNat := by
    have := h.calls w
    rwa [hcall] at this
  have htop : (s.nodeTop + UInt32.ofNat nodeSize).toNat = s.nodeTop.toNat + nodeSize := by
    rw [UInt32.toNat_add, toNat_nodeSize]
    exact Nat.mod_eq_of_lt h.top_small
  have hnode : nodeSize = 64 := rfl
  set s' : NodeAllocator n := { s with nodeTop := s.nodeTop + UInt32.ofNat nodeSize } with hs'
  have htop' : s'.nodeTop.toNat = s.nodeTop.toNat + nodeSize := htop
  have hold : ∀ o, s.Reserved o → s'.Reserved o := fun o ho => ⟨by rw [htop']; have := ho.1; omega, ho.2⟩
  -- every node reserved before ends below the old top
  have hne : ∀ o, s.Reserved o → o ≠ s.nodeTop := by
    rintro o ho rfl
    have := ho.1
    omega
  have hmem : ∀ v, ∀ o ∈ ((s'.goto w (.loadBottom r s.nodeTop)).calls v).held,
      v = w ∧ o = s.nodeTop ∨ v ≠ w ∧ o ∈ (s.calls v).held := by
    intro v o ho
    rw [calls_goto] at ho
    split at ho
    · next hv => exact .inl ⟨hv, (Option.some.inj ho).symm⟩
    · next hv => exact .inr ⟨hv, ho⟩
  exact
    { small := h.small
      top_dvd := by
        show nodeSize ∣ s'.nodeTop.toNat
        rw [htop']
        exact (Nat.dvd_add_right h.top_dvd).mpr (Nat.dvd_refl _)
      top_small := by
        show s'.nodeTop.toNat + nodeSize < 2 ^ 32
        have := h.small
        omega
      bottom_le := h.bottom_le
      calls := fun v => by
        rw [calls_goto]
        split
        · exact hr
        · exact h.calls v
      held := fun v o ho => by
        rcases hmem v o ho with ⟨-, rfl⟩ | ⟨-, ho⟩
        · exact ⟨htop'.ge, h.top_dvd⟩
        · exact hold o (h.held v o ho)
      held_ne := fun v u hvu o ho ho' => by
        rcases hmem v o ho with ⟨rfl, rfl⟩ | ⟨-, ho⟩
        · rcases hmem u _ ho' with ⟨rfl, -⟩ | ⟨-, ho'⟩
          · exact hvu rfl
          · exact hne _ (h.held u _ ho') rfl
        · rcases hmem u o ho' with ⟨-, rfl⟩ | ⟨-, ho'⟩
          · exact hne _ (h.held v _ ho) rfl
          · exact h.held_ne v u hvu o ho ho'
      held_fresh := fun v o ho p hp => by
        rcases hmem v o ho with ⟨-, rfl⟩ | ⟨-, ho⟩
        · exact hne _ (h.reserved p hp)
        · exact h.held_fresh v o ho p hp
      reserved := fun p hp => hold _ (h.reserved p hp)
      above := h.above
      nodes_ne := h.nodes_ne
      data_below := h.data_below }

theorem Inv.toNat_dataOff (h : Inv s) (hcall : s.calls w = .casBottom r nodeOff s.dataBottom) :
    (below r nodeOff s.dataBottom).dataEnd = s.dataBottom.toNat ∧
      (below r nodeOff s.dataBottom).nodeEnd ≤ (below r nodeOff s.dataBottom).dataOff.toNat := by
  have hok : nodeOff.toNat + nodeSize + r.bytes ≤ s.dataBottom.toNat := by
    have := h.calls w
    rw [hcall] at this
    exact this.2
  have hbottom := h.bottom_le
  have hlen := h.toNat_dataLen (r := r) (by omega)
  have hle : r.keyLen + r.valLen ≤ s.dataBottom := by
    rw [UInt32.le_iff_toNat_le, hlen]
    omega
  have hoff : (below r nodeOff s.dataBottom).dataOff.toNat = s.dataBottom.toNat - r.bytes := by
    rw [below, UInt32.toNat_sub_of_le _ _ hle, hlen]
  rw [Allocation.dataEnd, Allocation.nodeEnd, hoff]
  show s.dataBottom.toNat - r.bytes + r.bytes = s.dataBottom.toNat ∧
    nodeOff.toNat + nodeSize ≤ s.dataBottom.toNat - r.bytes
  omega

/-- The compare-and-swap of `dataBottom` places the data below all others and above its own node. -/
theorem Inv.place (h : Inv s)
    (hcall : s.calls w = .casBottom r nodeOff s.dataBottom) : Inv (s.place w (below r nodeOff s.dataBottom)) := by
  obtain ⟨hdata, hown⟩ := h.toNat_dataOff hcall
  have hbottom := h.bottom_le
  have hheld : nodeOff ∈ (s.calls w).held := by
    rw [hcall]
    rfl
  set q := below r nodeOff s.dataBottom with hq
  have hlow : q.dataOff.toNat ≤ s.dataBottom.toNat := by
    rw [← hdata, Allocation.dataEnd]
    exact Nat.le_add_right _ _
  have hplaced : ∀ p ∈ (s.place w q).placed, p ∈ s.placed ∨ p = q := by
    intro p hp
    rcases List.mem_append.mp hp with hp | hp
    · exact .inl hp
    · exact .inr (List.mem_singleton.mp hp)
  have hmem : ∀ v, ∀ o ∈ ((s.place w q).calls v).held, v ≠ w ∧ o ∈ (s.calls v).held := by
    intro v o ho
    rw [NodeAllocator.place, calls_goto] at ho
    split at ho
    · cases ho
    · next hv => exact ⟨hv, ho⟩
  have hcalls : ∀ c, s.CallOk c → (s.place w q).CallOk c := by
    intro c hc
    cases c with
    | idle => exact hc
    | loadTop r => exact hc
    | casTop r currTop => exact hc
    | loadBottom r nodeOff => exact hc
    | casBottom r nodeOff currDataBottom => exact hc
  exact
    { small := h.small
      top_dvd := h.top_dvd
      top_small := h.top_small
      bottom_le := hlow.trans hbottom
      calls := fun v => by
        rw [NodeAllocator.place, calls_goto]
        split
        · trivial
        · exact hcalls _ (h.calls v)
      held := fun v o ho => h.held v o (hmem v o ho).2
      held_ne := fun v u hvu o ho ho' => h.held_ne v u hvu o (hmem v o ho).2 (hmem u o ho').2
      held_fresh := fun v o ho p hp => by
        obtain ⟨hv, ho⟩ := hmem v o ho
        rcases hplaced p hp with hp | rfl
        · exact h.held_fresh v o ho p hp
        · rintro rfl
          exact h.held_ne w v (Ne.symm hv) _ hheld ho
      reserved := fun p hp => by
        rcases hplaced p hp with hp | rfl
        · exact h.reserved p hp
        · exact h.held w _ hheld
      above := fun p hp => by
        rcases hplaced p hp with hp | rfl
        · obtain ⟨h₁, h₂, h₃⟩ := h.above p hp
          exact ⟨h₁, hlow.trans h₂, h₃⟩
        · exact ⟨hown, le_refl _, hdata.le.trans hbottom⟩
      nodes_ne := by
        refine List.pairwise_append.mpr ⟨h.nodes_ne, List.pairwise_singleton _ _, fun p hp p' hp' => ?_⟩
        rw [List.mem_singleton.mp hp']
        exact h.held_fresh w _ hheld p hp
      data_below := by
        refine List.pairwise_append.mpr ⟨h.data_below, List.pairwise_singleton _ _, fun p hp p' hp' => ?_⟩
        rw [List.mem_singleton.mp hp', hdata]
        exact (h.above p hp).2.1 }

/-! ### One step -/

/-- A step places nothing, or it is a compare-and-swap of `dataBottom` that succeeds. -/
inductive Places (s : NodeAllocator n) : AllocStep n → NodeAllocator n → Prop
  | nothing {a : AllocStep n} {s' : NodeAllocator n} (hplaced : s'.placed = s.placed)
      (hbottom : s'.dataBottom = s.dataBottom) (hclear : s.Clear a) : Places s a s'
  | data {w : Fin n} {r : AllocRequest} {nodeOff : UInt32}
      (hcall : s.calls w = .casBottom r nodeOff s.dataBottom) :
      Places s (.go w) (s.place w (below r nodeOff s.dataBottom))

/-- **One atomic operation** keeps the invariant; its data, if it places any, is what it returns. -/
theorem Inv.step (h : Inv s) (hfits : s.Fits a) (hstep : s.step a = some (s', out)) :
    Inv s' ∧ Places s a s' ∧ s'.arenaLen = s.arenaLen ∧ s'.placed = s.placed ++ out.reduceOption := by
  have hnil : s.placed = s.placed ++ ([] : List (Option Allocation)).reduceOption :=
    (List.append_nil _).symm
  cases a with
  | call w r =>
    cases hcall : s.calls w with
    | idle =>
      simp only [NodeAllocator.step, hcall, Option.some.injEq, Prod.mk.injEq] at hstep
      obtain ⟨rfl, rfl⟩ := hstep
      exact ⟨h.goto hfits (fun o ho => by cases ho), .nothing rfl rfl trivial, rfl, hnil⟩
    | _ => simp [NodeAllocator.step, hcall] at hstep
  | go w =>
    have hok := h.calls w
    have hclear : (∀ r nodeOff, s.calls w ≠ .casBottom r nodeOff s.dataBottom) → s.Clear (.go w) := by
      intro hne
      cases hc : s.calls w with
      | casBottom r nodeOff cur =>
        simp only [Clear, hc]
        rintro rfl
        exact absurd hc (hne r nodeOff)
      | _ => simp only [Clear, hc, ClearCall]
    have hidle : Inv (s.goto w .idle) := h.goto trivial fun o ho => by cases ho
    cases hcall : s.calls w with
    | idle => simp [NodeAllocator.step, hcall] at hstep
    | loadTop r =>
      rw [hcall] at hok
      simp only [NodeAllocator.step, hcall] at hstep
      have hc := hclear fun r' o => by rw [hcall]; exact AllocCall.noConfusion
      split at hstep
      · cases hstep
        exact ⟨hidle, .nothing rfl rfl hc, rfl, hnil⟩
      · next hroom =>
        cases hstep
        rw [gt_iff_lt, UInt32.not_lt, UInt32.le_iff_toNat_le, UInt32.toNat_add, toNat_nodeSize,
          Nat.mod_eq_of_lt h.top_small] at hroom
        exact ⟨h.goto ⟨hok, hroom⟩ (fun o ho => by cases ho), .nothing rfl rfl hc, rfl, hnil⟩
    | casTop r currTop =>
      rw [hcall] at hok
      simp only [NodeAllocator.step, hcall] at hstep
      have hc := hclear fun r' o => by rw [hcall]; exact AllocCall.noConfusion
      split at hstep
      · next heq =>
        cases hstep
        subst heq
        exact ⟨h.reserveNode hcall, .nothing rfl rfl hc, rfl, hnil⟩
      · cases hstep
        exact ⟨h.goto hok.1 (fun o ho => by cases ho), .nothing rfl rfl hc, rfl, hnil⟩
    | loadBottom r nodeOff =>
      rw [hcall] at hok
      simp only [NodeAllocator.step, hcall] at hstep
      have hc := hclear fun r' o => by rw [hcall]; exact AllocCall.noConfusion
      split at hstep
      · cases hstep
        exact ⟨hidle, .nothing rfl rfl hc, rfl, hnil⟩
      · next hlen =>
        split at hstep
        · cases hstep
          exact ⟨hidle, .nothing rfl rfl hc, rfl, hnil⟩
        · next habove =>
          cases hstep
          have hnode : nodeOff.toNat + nodeSize ≤ s.nodeTop.toNat :=
            (h.held w nodeOff (by rw [hcall]; rfl)).1
          have htop := h.top_small
          have hbytes := h.toNat_dataLen hok
          rw [UInt32.not_lt] at hlen
          rw [gt_iff_lt, UInt32.not_lt, UInt32.le_iff_toNat_le, UInt32.toNat_add, toNat_nodeSize,
            Nat.mod_eq_of_lt (by omega), UInt32.toNat_sub_of_le _ _ hlen, hbytes] at habove
          rw [UInt32.le_iff_toNat_le, hbytes] at hlen
          have hnode64 : nodeSize = 64 := rfl
          refine ⟨h.goto ⟨hok, ?_⟩ (fun o ho => by rw [hcall]; exact ho), .nothing rfl rfl hc, rfl, hnil⟩
          show nodeOff.toNat + nodeSize + r.bytes ≤ s.dataBottom.toNat
          omega
    | casBottom r nodeOff currDataBottom =>
      rw [hcall] at hok
      simp only [NodeAllocator.step, hcall] at hstep
      split at hstep
      · next heq =>
        cases hstep
        subst heq
        exact ⟨h.place hcall, .data hcall, rfl, rfl⟩
      · next hne =>
        cases hstep
        have hc := hclear fun r' o heq => hne (AllocCall.casBottom.inj (hcall.symm.trans heq)).2.2.symm
        exact ⟨h.goto hok.1 (fun o ho => by rw [hcall]; exact ho), .nothing rfl rfl hc, rfl, hnil⟩

/-! ### Where regions meet -/

/-- All nodes that were placed end below the data. -/
def Good (s : NodeAllocator n) : Prop := ∀ p ∈ s.placed, p.nodeEnd ≤ s.dataBottom.toNat

/-- Node regions are disjoint: they are at different multiples of the node size. -/
theorem disjoint_nodeBytes {p q : Allocation} (hp : nodeSize ∣ p.nodeOff.toNat) (hq : nodeSize ∣ q.nodeOff.toNat)
    (hne : p.nodeOff ≠ q.nodeOff) : Disjoint p.nodeBytes q.nodeBytes := by
  have hne' : p.nodeOff.toNat ≠ q.nodeOff.toNat := fun h => hne (UInt32.toNat_inj.mp h)
  have hnode : nodeSize = 64 := rfl
  rw [Set.disjoint_left]
  intro i hi hi'
  simp only [Allocation.nodeBytes, Allocation.nodeEnd, Set.mem_Ico, hnode] at hi hi'
  rw [hnode] at hp hq
  omega

/-- A region that ends where another begins. -/
theorem disjoint_Ico_of_le {a b c d : ℕ} (h : b ≤ c) : Disjoint (Set.Ico a b) (Set.Ico c d) :=
  Set.Ico_disjoint_Ico_same.mono_right (Set.Ico_subset_Ico_left h)

theorem Inv.placed_of_good (h : Inv s) (hgood : Good s) : Placed s.arenaLen.toNat s.placed := by
  have hnodeData : ∀ p ∈ s.placed, ∀ q ∈ s.placed, Disjoint p.nodeBytes q.dataBytes := fun p hp q hq =>
    disjoint_Ico_of_le ((hgood p hp).trans (h.above q hq).2.1)
  refine ⟨fun p hp i hi => ?_, fun p hp => hnodeData p hp p hp, ?_⟩
  · obtain ⟨hown, -, hend⟩ := h.above p hp
    have hle : p.dataOff.toNat ≤ p.dataEnd := Nat.le_add_right _ _
    rcases hi with hi | hi
    · exact (Set.mem_Ico.mp hi).2.trans_le (hown.trans (hle.trans hend))
    · exact (Set.mem_Ico.mp hi).2.trans_le hend
  · have hall := h.nodes_ne.and h.data_below
    rw [List.pairwise_iff_forall_sublist] at hall
    refine List.pairwise_iff_forall_sublist.mpr fun {p q} hsub => ?_
    have hp : p ∈ s.placed := hsub.subset List.mem_cons_self
    have hq : q ∈ s.placed := hsub.subset (List.mem_cons_of_mem _ List.mem_cons_self)
    obtain ⟨hne, hbelow⟩ := hall hsub
    rw [Set.disjoint_union_left, Set.disjoint_union_right, Set.disjoint_union_right]
    exact ⟨⟨disjoint_nodeBytes (h.reserved p hp).2 (h.reserved q hq).2 hne, hnodeData p hp q hq⟩,
      (hnodeData q hq p hp).symm, (disjoint_Ico_of_le hbelow).symm⟩

/-- A step from a good state: it stays good if the step is clear; if not, two regions meet. -/
theorem Good.step (h : Inv s) (hgood : Good s)
    (hplaces : Places s a s') : (s.Clear a → Good s') ∧ (¬ s.Clear a → ¬ Placed s.arenaLen.toNat s'.placed) := by
  cases hplaces with
  | nothing hplaced hbottom hclear =>
    refine ⟨fun _ p hp => ?_, fun hnot => absurd hclear hnot⟩
    rw [hbottom]
    exact hgood p (hplaced ▸ hp)
  | @data w r nodeOff hcall =>
    obtain ⟨hdata, hown⟩ := h.toNat_dataOff hcall
    have hclear : s.Clear (.go w) ↔ ∀ p ∈ s.placed, p.nodeEnd + r.bytes ≤ s.dataBottom.toNat := by
      simp only [Clear, ClearCall, hcall, forall_const]
    set q := below r nodeOff s.dataBottom with hq
    have hoff : q.dataOff.toNat + r.bytes = s.dataBottom.toNat := hdata
    rw [hclear]
    refine ⟨fun hall p hp => ?_, fun hnot hplaced => ?_⟩
    · show p.nodeEnd ≤ q.dataOff.toNat
      rcases List.mem_append.mp hp with hp | hp
      · have := hall p hp
        omega
      · rw [List.mem_singleton.mp hp]
        exact hown
    · -- the node is below the old data and not below the new one: its last byte is in both
      obtain ⟨p, hp, hover⟩ : ∃ p ∈ s.placed, ¬ p.nodeEnd + r.bytes ≤ s.dataBottom.toNat := by
        by_contra hnone
        exact hnot fun p hp => by_contra fun hlt => hnone ⟨p, hp, hlt⟩
      have hbelow := hgood p hp
      have hsub : List.Sublist [p, q] (s.placed ++ [q]) :=
        (List.singleton_sublist.mpr hp).append (List.Sublist.refl [q])
      have hdisj := List.pairwise_iff_forall_sublist.mp hplaced.apart hsub
      have hend : p.nodeEnd = p.nodeOff.toNat + 64 := rfl
      have hnode : p.nodeEnd - 1 ∈ p.nodeBytes := Set.mem_Ico.mpr ⟨by omega, by omega⟩
      have hbyte : p.nodeEnd - 1 ∈ q.dataBytes := Set.mem_Ico.mpr ⟨by omega, by rw [hdata]; omega⟩
      exact Set.disjoint_left.mp hdisj (.inl hnode) (.inr hbyte)

theorem placed_of_append {arenaLen : ℕ} {ps qs : List Allocation} (h : Placed arenaLen (ps ++ qs)) :
    Placed arenaLen ps :=
  ⟨fun p hp => h.inside p (List.mem_append_left _ hp), fun p hp => h.own p (List.mem_append_left _ hp),
    (List.pairwise_append.mp h.apart).1⟩

/-- What a run has placed is what its calls have returned. -/
theorem Inv.placed_run (h : Inv s) (hfits : Meets NodeAllocator.step Fits s steps)
    (hrun : run NodeAllocator.step s steps = some (s', out)) : s'.placed = s.placed ++ out.reduceOption := by
  induction steps generalizing s out with
  | nil =>
    cases hrun
    exact (List.append_nil _).symm
  | cons a steps ih =>
    obtain ⟨s₁, o, rest, hs, hr, rfl⟩ := run_cons_some hrun
    obtain ⟨hfit, hfits⟩ := (meets_cons hs).mp hfits
    obtain ⟨hinv, -, -, hnew⟩ := h.step hfit hs
    rw [ih hinv hfits hr, hnew, List.append_assoc, List.reduceOption_append]

/-- **Every run**: the regions are apart exactly if every reservation of data was clear of the nodes
placed before it. -/
theorem Inv.placed_iff (h : Inv s) (hgood : Good s) (hfits : Meets NodeAllocator.step Fits s steps)
    (hrun : run NodeAllocator.step s steps = some (s', out)) :
    Placed s.arenaLen.toNat s'.placed ↔ Meets NodeAllocator.step Clear s steps := by
  induction steps generalizing s out with
  | nil =>
    cases hrun
    exact iff_of_true (h.placed_of_good hgood) trivial
  | cons a steps ih =>
    obtain ⟨s₁, o, rest, hs, hr, rfl⟩ := run_cons_some hrun
    obtain ⟨hfit, hfits⟩ := (meets_cons hs).mp hfits
    obtain ⟨hinv, hplaces, hlen, -⟩ := h.step hfit hs
    obtain ⟨hkeep, hmeet⟩ := hgood.step h hplaces
    rw [meets_cons hs]
    by_cases hclear : s.Clear a
    · rw [← hlen, ih hinv (hkeep hclear) hfits hr]
      exact (and_iff_right hclear).symm
    · refine iff_of_false (fun hplaced => ?_) fun hall => hclear hall.1
      rw [hinv.placed_run hfits hr] at hplaced
      exact hmeet hclear (placed_of_append hplaced)

/-- **Regions of racing allocations.**  In an arena of a size whose offsets do not wrap, after every
interleaving of any number of calls with lengths that fit, the regions of the allocations returned are
inside the arena and apart exactly if every compare-and-swap that reserved data left it above the nodes
returned before. -/
theorem allocations_apart_iff (n : ℕ) (arenaLen : UInt32) (hsmall : arenaLen.toNat + nodeSize < 2 ^ 32)
    (steps : List (AllocStep n)) (s : NodeAllocator n) (returned : List (Option Allocation))
    (hfits : Meets step Fits (boot n arenaLen) steps)
    (hrun : run step (boot n arenaLen) steps = some (s, returned)) :
    Placed arenaLen.toNat returned.reduceOption ↔ Meets step Clear (boot n arenaLen) steps := by
  have hinv : Inv (boot n arenaLen) := inv_boot hsmall
  have hgood : Good (boot n arenaLen) := fun p hp => by cases hp
  rw [← hinv.placed_iff hgood hfits hrun, hinv.placed_run hfits hrun]
  rfl

/-- Two goroutines, one after the other, in an arena of 512 bytes. -/
def orderlySteps : List (AllocStep 2) :=
  [.call 0 ⟨40, 8⟩, .go 0, .go 0, .go 0, .go 0, .call 1 ⟨40, 24⟩, .go 1, .go 1, .go 1, .go 1]

/-- The first goroutine has its node and is overtaken; its data goes where the node of the other is. -/
def overtakenSteps : List (AllocStep 2) :=
  [.call 0 ⟨40, 8⟩, .go 0, .go 0, .call 1 ⟨40, 24⟩, .go 1, .go 1, .go 1, .go 1, .go 0, .go 0]

/-- The rule at work on an orderly run. -/
theorem allocations_apart_iff_on_orderlySteps :
    ∃ s returned, run step (boot 2 512) orderlySteps = some (s, returned) ∧
      returned.reduceOption.length = 2 ∧ Placed 512 returned.reduceOption := by
  have hok : ((run step (boot 2 512) orderlySteps).any fun p => decide (p.2.reduceOption.length = 2)) = true := by
    decide +kernel
  have hfits : Meets step Fits (boot 2 512) orderlySteps := by decide +kernel
  have hclear : Meets step Clear (boot 2 512) orderlySteps := by decide +kernel
  cases hrun : run step (boot 2 512) orderlySteps with
  | none =>
    rw [hrun] at hok
    cases hok
  | some p =>
    rw [hrun] at hok
    exact ⟨p.1, p.2, rfl, of_decide_eq_true hok,
      (allocations_apart_iff 2 512 (by decide) orderlySteps p.1 p.2 hfits hrun).mpr hclear⟩

/-- **A node and the data of another allocation meet**: in an arena of 256 bytes the second goroutine gets
the node `[128, 192)` and the data from 192 on; the first, whose node is at 64, gets the data
`[144, 192)`. -/
theorem overtaken_data_meets_node :
    Meets step Fits (boot 2 256) overtakenSteps ∧
    ∃ s returned, run step (boot 2 256) overtakenSteps = some (s, returned) ∧
      ¬ Placed 256 returned.reduceOption := by
  have hfits : Meets step Fits (boot 2 256) overtakenSteps := by decide +kernel
  have hok : (run step (boot 2 256) overtakenSteps).isSome = true := by decide +kernel
  have hnot : ¬ Meets step Clear (boot 2 256) overtakenSteps := by decide +kernel
  have hinv : Inv (boot 2 256) := inv_boot (by decide)
  have hgood : Good (boot 2 256) := fun p hp => by cases hp
  refine ⟨hfits, ?_⟩
  obtain ⟨p, hrun⟩ := Option.isSome_iff_exists.mp hok
  refine ⟨p.1, p.2, hrun, fun hplaced => hnot ((hinv.placed_iff hgood hfits hrun).mp ?_)⟩
  rw [hinv.placed_run hfits hrun]
  exact hplaced

end NodeAllocator

end Sovereign.Database
