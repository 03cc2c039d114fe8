import Concord.Proofs.Chained.Steps
import Concord.Proofs.Forgery

/-!
A traitor that leads four views of the chained protocol. Four nodes, each on top of the one before
and with a forged certificate, make a member deliver the lowest of them.
-/

namespace Concord.Core.Chained

open Handler

variable {n : Nat} {σ : Type} {g : Group n σ} {t : Fin n}

theorem idle (ctx : Context σ) : Idle ctx .chained := by
  intro (t : Turn Chain σ) hnone
  have hopen : ∃ effects, (∀ x, .broadcast x ∉ effects) ∧
      (exec (openRound ctx) t).2 = { t with effects := t.effects ++ effects } := by
    rw [openRound, exec_bind, exec_state]
    simp only [exec_ite]
    split
    · refine ⟨[], by simp, ?_⟩
      rw [exec_bind, exec_takeNewViews_idle (.inr hnone)]
      simp
    · rw [exec_bind, exec_memory]
      exact ⟨_, Context.quiet_posted ctx _ _ _, exec_post ctx _ _ _ t⟩
  exact hopen

/-- Increasing views that `t` leads. -/
structure Reign (g : Group n σ) (t : Fin n) where
  view : Nat → View
  seat : ∀ k < 4, g.seat (view k) = t
  increasing : ∀ k < 4, view k < view (k + 1)

/-- A chain of forged nodes on top of the genesis node. -/
def tower (pen : Pen g t) (reign : Reign g t) (payload : Payload) : (height : Nat) → Body
  | 0 => genesisNode g.scheme
  | k + 1 =>
    let below := (tower pen reign payload k).id
    let qc := pen.certificate ⟨.generic, reign.view k, payload, below⟩
    ((Body.plain (reign.view k) .generic payload qc).withParent below).sealId g.scheme

/-- The nodes of the tower have different identities, and none is zero. -/
structure Upright (pen : Pen g t) (reign : Reign g t) (payload : Payload) : Prop where
  distinct : ∀ j ≤ 4, ∀ k ≤ 4,
    (tower pen reign payload j).id = (tower pen reign payload k).id → j = k
  nonzero : ∀ k ≤ 4, (tower pen reign payload k).id ≠ Digest.zero

section Tree

variable {pen : Pen g t} {reign : Reign g t} {payload : Payload}

/-- The tree consists of the nodes of the tower up to `height`. -/
def Holds (pen : Pen g t) (reign : Reign g t) (payload : Payload) (height : Nat)
    (tree : NodeTree) : Prop :=
  ∀ x, x ∈ tree.nodes ↔ ∃ k ≤ height, x = tower pen reign payload k

variable {tree : NodeTree} {height k : Nat} (hupright : Upright pen reign payload)
  (h : Holds pen reign payload height tree)

include h

theorem directParent?_tower (hk : k ≤ height) :
    directParent? tree (tower pen reign payload (k + 1)) = some (tower pen reign payload k) := by
  have hget : tree.get? (tower pen reign payload k).id = some (tower pen reign payload k) :=
    NodeTree.get?_of_mem ((h _).2 ⟨k, hk, rfl⟩)
  have hnodeId : (tower pen reign payload (k + 1)).justify.nodeId =
      (tower pen reign payload k).id := rfl
  have hparentId : (tower pen reign payload (k + 1)).parentId =
      (tower pen reign payload k).id := rfl
  simp [directParent?, hnodeId, hget, hparentId]

include hupright

theorem directParent?_root (hheight : height ≤ 4) :
    directParent? tree (tower pen reign payload 0) = none := by
  cases hparent : directParent? tree (tower pen reign payload 0) with
  | none => rfl
  | some below =>
    obtain ⟨hmem, hdirect⟩ := directParent?_spec hparent
    obtain ⟨k, hk, rfl⟩ := (h below).1 hmem
    exact absurd hdirect.certifies.symm (hupright.nonzero k (hk.trans hheight))

theorem Holds.insert (hheight : height < 4) :
    Holds pen reign payload (height + 1)
      (tree.insert (tower pen reign payload (height + 1))) := by
  intro x
  rw [NodeTree.mem_insert_iff]
  · rw [h x]
    constructor
    · rintro (rfl | ⟨k, hk, rfl⟩)
      · exact ⟨height + 1, Nat.le_refl _, rfl⟩
      · exact ⟨k, Nat.le_succ_of_le hk, rfl⟩
    · rintro ⟨k, hk, rfl⟩
      rcases Nat.lt_or_eq_of_le hk with hlt | rfl
      · exact .inr ⟨k, Nat.le_of_lt_succ hlt, rfl⟩
      · exact .inl rfl
  · intro y hy hid
    obtain ⟨k, hk, rfl⟩ := (h y).1 hy
    have := hupright.distinct k (by omega) (height + 1) (by omega) hid
    omega

end Tree

section Climb

variable {ctx : Context σ} {pen : Pen g t} {reign : Reign g t} {payload : Payload} {k : Nat}
  {l l' : Life Chain σ}

theorem locked_lock {s : State} {qc lock : Certificate} (h : (s.lock qc).locked = some lock) :
    s.locked = some lock ∨ lock = qc := by
  unfold State.lock at h
  split at h
  · exact .inr (Option.some.inj h).symm
  · exact .inl h

@[simp] theorem raisedBy_locked (node : Body) (l : Life Chain σ) :
    (raisedBy node l).state.locked = l.state.locked := by
  unfold raisedBy
  split <;> rfl

structure Unmoved (qc : Certificate) (l l' : Life Chain σ) : Prop where
  tree : l'.memory.tree = l.memory.tree
  lastDecided : l'.memory.lastDecided = l.memory.lastDecided
  done : l'.done = l.done
  heard : l'.heard = l.heard
  locked : ∀ lock, l'.state.locked = some lock → l.state.locked = some lock ∨ lock = qc

theorem unmoved_lockedBy (node b1 : Body) (l : Life Chain σ) :
    Unmoved b1.justify l (lockedBy b1 (raisedBy node l)) where
  tree := by simp [lockedBy]
  lastDecided := by simp [lockedBy]
  done := by simp [lockedBy]
  heard := by simp [lockedBy]
  locked lock h := by simpa using locked_lock (s := (raisedBy node l).state) h

variable (hupright : Upright pen reign payload)
  (hholds : Holds pen reign payload (k + 1) l.memory.tree)
  (hgenesis : l.memory.tree.genesisId = (genesisNode g.scheme).id)

include hupright hholds hgenesis

theorem unmoved_of_walk (hk : k < 3) (h : Walk ctx (tower pen reign payload (k + 1)) l l') :
    Unmoved (tower pen reign payload k).justify l l' := by
  have hparent : ∀ {j}, j ≤ k → directParent? l.memory.tree (tower pen reign payload (j + 1)) =
      some (tower pen reign payload j) := fun hj => directParent?_tower hholds (Nat.le_succ_of_le hj)
  have hroot := directParent?_root hupright hholds (by omega)
  cases h with
  | loose h2 => exact absurd (h2.symm.trans (hparent (Nat.le_refl k))) nofun
  | one h2 h1 =>
    exact ⟨by simp, by simp, by simp, by simp, fun lock hlock => .inl (by simpa using hlock)⟩
  | two h2 h1 h0 | stale h2 h1 h0 =>
    obtain rfl := Option.some.inj (h2.symm.trans (hparent (Nat.le_refl k)))
    exact unmoved_lockedBy _ _ l
  | @final b1 b0 b h2 h1 h0 hnot =>
    -- The way down from the top ends at the root too soon.
    obtain rfl := Option.some.inj (h2.symm.trans (hparent (Nat.le_refl k)))
    match k, hk with
    | 0, _ => exact absurd (h1.symm.trans hroot) nofun
    | 1, _ =>
      obtain rfl := Option.some.inj (h1.symm.trans (hparent (j := 0) (by omega)))
      exact absurd (h0.symm.trans hroot) nofun
    | 2, _ =>
      obtain rfl := Option.some.inj (h1.symm.trans (hparent (j := 1) (by omega)))
      obtain rfl := Option.some.inj (h0.symm.trans (hparent (j := 0) (by omega)))
      exact absurd hgenesis.symm hnot

omit hholds in
theorem done_of_walk (hholds : Holds pen reign payload 4 l.memory.tree)
    (hundecided : l.memory.lastDecided = none)
    (h : Walk ctx (tower pen reign payload 4) l l') :
    l'.done = l.done ++ [.deliver (reign.view 0) payload] ∧ l'.heard = l.heard := by
  have hparent : ∀ {j}, j < 4 → directParent? l.memory.tree (tower pen reign payload (j + 1)) =
      some (tower pen reign payload j) := fun hj => directParent?_tower hholds (Nat.le_of_lt hj)
  have h3 := hparent (j := 3) (by omega)
  have h2 := hparent (j := 2) (by omega)
  have h1 := hparent (j := 1) (by omega)
  cases h with
  | loose hnone => exact absurd (hnone.symm.trans h3) nofun
  | one htop hnone =>
    obtain rfl := Option.some.inj (htop.symm.trans h3)
    exact absurd (hnone.symm.trans h2) nofun
  | two htop hnext hnone =>
    obtain rfl := Option.some.inj (htop.symm.trans h3)
    obtain rfl := Option.some.inj (hnext.symm.trans h2)
    exact absurd (hnone.symm.trans h1) nofun
  | stale htop hnext hlow hstale =>
    obtain rfl := Option.some.inj (htop.symm.trans h3)
    obtain rfl := Option.some.inj (hnext.symm.trans h2)
    obtain rfl := Option.some.inj (hlow.symm.trans h1)
    rcases hstale with hroot | ⟨decided, hdecided, -⟩
    · exact absurd (hupright.distinct 1 (by omega) 0 (by omega) (hroot.trans hgenesis)) nofun
    · exact absurd (hundecided.symm.trans hdecided) nofun
  | final htop hnext hlow =>
    obtain rfl := Option.some.inj (htop.symm.trans h3)
    obtain rfl := Option.some.inj (hnext.symm.trans h2)
    obtain rfl := Option.some.inj (hlow.symm.trans h1)
    have hlocked := unmoved_lockedBy (tower pen reign payload 4) (tower pen reign payload 3) l
    exact ⟨congrArg (· ++ [Effect.deliver (reign.view 0) payload]) hlocked.done, hlocked.heard⟩

end Climb

structure Willing (g : Group n σ) (i : Fin n) (data : Bytes) : Prop where
  accepts : ∀ app, (g.application i).accepts app data
  signs : ∀ kind body, ∃ letter, (g.context i).build kind body = .ok letter

theorem walk_of_adopt {ctx : Context σ} {node : Body} {l l' : Life Chain σ}
    (hnext : node.view.next? ≠ none) (hsigns : ∀ kind body, ∃ letter, ctx.build kind body = .ok letter)
    (h : Adopt ctx node l l') : ∃ effects, (∀ x, .broadcast x ∉ effects) ∧
      Walk ctx node ((stored node l).after { (stored node l).turn with effects := effects }) l' := by
  cases h with
  | last hlast => exact absurd hlast hnext
  | unsigned hunsigned =>
    obtain ⟨letter, hletter⟩ := hsigns .vote (voteBody node)
    exact absurd (hletter.symm.trans hunsigned) nofun
  | leading _ _ hwalk =>
    have hsame : (stored node l).after (stored node l).turn = stored node l := Life.after_turn _
    exact ⟨[], by simp, hsame.symm ▸ hwalk⟩
  | voting _ _ _ hwalk => exact ⟨_, by simp, hwalk⟩

section Feeding

variable {pen : Pen g t} {reign : Reign g t} {payload : Payload} {i : Fin n} {k : Nat}
  {l : Life Chain σ}

/-- A core that accepted the first `k` nodes of the tower above the root. -/
structure Climbed (pen : Pen g t) (reign : Reign g t) (payload : Payload) (k : Nat)
    (l : Life Chain σ) : Prop where
  running : l.state.status = .running
  le_view : l.state.view ≤ reign.view k
  free : reign.view k = l.state.view → l.state.proposal = none
  locked : ∀ lock, l.state.locked = some lock → lock.view < reign.view k
  holds : Holds pen reign payload k l.memory.tree
  genesisId : l.memory.tree.genesisId = (genesisNode g.scheme).id
  undecided : l.memory.lastDecided = none
  quiet : ∀ x, .broadcast x ∉ l.done
  heard : ∀ x ∈ l.heard, ∃ j < 4, x.body = tower pen reign payload (j + 1)

theorem climbed_of_fresh (h : Fresh (v := .chained) g l) : Climbed pen reign payload 0 l where
  running := h.running
  le_view := by
    rw [h.view, UInt64.le_iff_toNat_le]
    simp
  free _ := h.proposal
  locked := by simp [h.locked]
  holds := by
    have hmemory : l.memory = Chain.initial g.scheme := h.memory
    simp [Holds, hmemory, Chain.initial, NodeTree.initial, tower]
  genesisId := by
    have hmemory : l.memory = Chain.initial g.scheme := h.memory
    simp [hmemory, Chain.initial, NodeTree.initial]
  undecided := by
    have hmemory : l.memory = Chain.initial g.scheme := h.memory
    simp [hmemory, Chain.initial]
  quiet := h.quiet
  heard := by
    have hheard : l.heard = [] := h.heard
    simp [hheard]

theorem forges_tower (hk : k < 4) (hfits : payload.Fits) :
    pen.Forges .generic (tower pen reign payload (k + 1)) where
  justify := ⟨_, rfl⟩
  level := rfl
  seat := reign.seat k hk
  suits := rfl
  fits := ⟨hfits, pen.fits_certificate hfits⟩

def grown (pen : Pen g t) (reign : Reign g t) (payload : Payload) (k : Nat) (effects : List Effect)
    (l : Life Chain σ) : Life Chain σ :=
  let node := tower pen reign payload (k + 1)
  { l with
    state := { l.state.jump (reign.view k) with phase := .generic, proposal := some node }
    memory := { l.memory with tree := l.memory.tree.insert node, leaf := node.id }
    heard := l.heard ++ [pen.letter .generic node]
    done := l.done ++ [.resetTimer] ++ effects }

theorem walk_of_climbed (h : Climbed pen reign payload k l) (hk : k < 4) (hfits : payload.Fits)
    (hwilling : Willing g i payload.data) :
    ∃ effects l', (∀ x, .broadcast x ∉ effects) ∧
      Life.take (v := .chained) (g.context i) l
        (.feed (pen.letter .generic (tower pen reign payload (k + 1))).envelope) = l'.noted ∧
      Walk (g.context i) (tower pen reign payload (k + 1))
        (grown pen reign payload k effects l) l' := by
  have hforges : pen.Forges .generic (tower pen reign payload (k + 1)) := forges_tower hk hfits
  have hknown : l.memory.tree.contains (tower pen reign payload (k + 1)).parentId :=
    NodeTree.contains_of_mem ((h.holds _).2 ⟨k, Nat.le_refl k, rfl⟩)
  have hcheck := hforges.checkProposal (fun lock =>
    l.memory.tree.extends? (tower pen reign payload (k + 1)).parentId lock.nodeId)
    (hwilling.accepts l.app) h.locked
  have hexec : exec (onGeneric (g.context i)
      (pen.letter .generic (tower pen reign payload (k + 1))).signed) l.turn = _ :=
    exec_onGeneric_of_known h.le_view h.free rfl hknown hcheck
  have hadopt := adopt_exec (g.context i) (tower pen reign payload (k + 1))
    { l with heard := l.heard ++ [pen.letter .generic (tower pen reign payload (k + 1))] }
    { l.turn with
      state := { l.state.jump (reign.view k) with
        phase := .generic
        proposal := some (tower pen reign payload (k + 1)) }
      effects := [.resetTimer] }
  have hnext : (tower pen reign payload (k + 1)).view.next? ≠ none := fun hnone => by
    have hlast : reign.view k = View.last := View.eq_last hnone
    have hlt := UInt64.lt_iff_toNat_lt.1 (reign.increasing k hk)
    have hbound := (reign.view (k + 1)).toNat_lt
    rw [hlast, View.toNat_last] at hlt
    omega
  obtain ⟨effects, hquiet, hwalk⟩ := walk_of_adopt hnext hwilling.signs hadopt
  refine ⟨effects, _, hquiet, (hforges.take (v := .chained) h.running).trans
    (congrArg (fun r => Life.noted (Life.after _ r.2)) hexec), hwalk⟩

theorem justify_tower_le (hk : k < 4) :
    (tower pen reign payload k).justify.view ≤ reign.view k := by
  cases k with
  | zero => exact UInt64.le_iff_toNat_le.2 (Nat.zero_le _)
  | succ k => exact UInt64.le_of_lt (reign.increasing k (by omega))

theorem Climbed.succ (h : Climbed pen reign payload k l) (hk : k < 3) (hfits : payload.Fits)
    (hupright : Upright pen reign payload) (hwilling : Willing g i payload.data) :
    Climbed pen reign payload (k + 1) (Life.take (v := .chained) (g.context i) l
      (.feed (pen.letter .generic (tower pen reign payload (k + 1))).envelope)) := by
  obtain ⟨effects, l', hquiet, htake, hwalk⟩ :=
    walk_of_climbed h (by omega) hfits hwilling
  have hholds : Holds pen reign payload (k + 1) (grown pen reign payload k effects l).memory.tree :=
    h.holds.insert hupright (by omega)
  have hgenesis : (grown pen reign payload k effects l).memory.tree.genesisId =
      (genesisNode g.scheme).id := by simp [grown, h.genesisId]
  have hunmoved := unmoved_of_walk hupright hholds hgenesis hk hwalk
  have hsteady := hwalk.steady
  have hlater := reign.increasing k (by omega)
  have hview : l'.state.view = reign.view k := hsteady.view.trans (State.jump_view h.le_view)
  rw [htake]
  constructor
  · exact hsteady.status.trans ((State.jump_status ..).trans h.running)
  · exact hview ▸ UInt64.le_of_lt hlater
  · exact fun hsame => absurd (hview ▸ hsame ▸ hlater) (UInt64.lt_irrefl _)
  · intro lock hlock
    rcases hunmoved.locked lock hlock with hold | rfl
    · have hold : l.state.locked = some lock := by simpa [grown] using hold
      exact UInt64.lt_trans (h.locked lock hold) hlater
    · exact UInt64.lt_of_le_of_lt (justify_tower_le (by omega)) hlater
  · exact hunmoved.tree ▸ hholds
  · exact hunmoved.tree ▸ hgenesis
  · exact hunmoved.lastDecided.trans h.undecided
  · intro x hx
    have hx : .broadcast x ∈ l'.done := hx
    rw [hunmoved.done] at hx
    simp [grown, h.quiet, hquiet] at hx
  · intro x hx
    have hx : x ∈ l'.heard := hx
    rw [hunmoved.heard] at hx
    rcases List.mem_append.1 hx with hx | hx
    · exact h.heard x hx
    · exact ⟨k, by omega, congrArg Letter.body (List.mem_singleton.1 hx)⟩

theorem Climbed.deceived (h : Climbed pen reign payload 3 l) (hfits : payload.Fits)
    (hupright : Upright pen reign payload) (hwilling : Willing g i payload.data) :
    Deceived (v := .chained) (fun b => ∃ j < 4, b = tower pen reign payload (j + 1))
      (reign.view 0) payload (Life.take (v := .chained) (g.context i) l
        (.feed (pen.letter .generic (tower pen reign payload 4)).envelope)) := by
  obtain ⟨effects, l', hquiet, htake, hwalk⟩ := walk_of_climbed h (by omega) hfits hwilling
  have hholds : Holds pen reign payload 4 (grown pen reign payload 3 effects l).memory.tree :=
    h.holds.insert hupright (by omega)
  have hgenesis : (grown pen reign payload 3 effects l).memory.tree.genesisId =
      (genesisNode g.scheme).id := by simp [grown, h.genesisId]
  obtain ⟨hdone, hheard⟩ := done_of_walk hupright hgenesis hholds h.undecided hwalk
  rw [htake]
  refine ⟨⟨?_, ?_⟩, ?_⟩
  · intro x hx
    have hx : .broadcast x ∈ l'.done := hx
    rw [hdone] at hx
    simp [grown, h.quiet, hquiet] at hx
  · intro x hx _
    have hx : x ∈ l'.heard := hx
    rw [hheard] at hx
    rcases List.mem_append.1 hx with hx | hx
    · exact h.heard x hx
    · exact ⟨3, by omega, congrArg Letter.body (List.mem_singleton.1 hx)⟩
  · change Effect.deliver (reign.view 0) payload ∈ l'.done
    rw [hdone]
    simp

/-- If a traitor leads four views and the identities of its tower are distinct, any loyal member in
its initial state can be brought to deliver any payload in the first of these views. -/
theorem exists_deceived {traitors : Finset (Fin n)} {w : World n .chained σ} {app : σ}
    (h : Reachable g traitors w) (hi : i ∉ traitors) (ht : t ∈ traitors)
    (hinit : w i = Life.initial g.scheme .chained app) (hfits : payload.Fits)
    (hupright : Upright pen reign payload) (hwilling : Willing g i payload.data) :
    ∃ l, Reachable g traitors (Function.update w i l) ∧
      Deceived (fun b => ∃ j < 4, b = tower pen reign payload (j + 1)) (reign.view 0) payload l := by
  have hclimb : ∀ k ≤ 3, ∃ l : Life Chain σ, Reachable g traitors (Function.update w i l) ∧
      Climbed pen reign payload k l := by
    intro k hk
    induction k with
    | zero =>
      have hfresh := fresh_begin (g := g) (i := i) (idle _) app
      rw [← hinit] at hfresh
      exact ⟨_, Reachable.take h hi .begin, climbed_of_fresh hfresh⟩
    | succ k ih =>
      obtain ⟨l, hreachable, hclimbed⟩ := ih (by omega)
      exact ⟨_, hreachable.feed hi ht (forges_tower (by omega) hfits),
        hclimbed.succ (by omega) hfits hupright hwilling⟩
  obtain ⟨l, hreachable, hclimbed⟩ := hclimb 3 (Nat.le_refl 3)
  exact ⟨_, hreachable.feed hi ht (forges_tower (by omega) hfits),
    hclimbed.deceived hfits hupright hwilling⟩

end Feeding

end Concord.Core.Chained
