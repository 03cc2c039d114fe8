import Concord.Proofs.Chained.History
import Concord.Proofs.Chained.Progress
import Concord.Proofs.Legible

/-!
The certificates that a core of the chained protocol reports. After taking over a node, its high
certificate is as recent as the one in the node only if the node directly follows the node that it
certifies and that one is stored, or if it was before.
-/

namespace Concord.Core.Chained

open Handler Relation

variable {σ : Type} {ctx : Context σ} {known : State × Chain → Prop}

section Turns

variable {t : Turn Chain σ} {node : Body} {tree tree' : NodeTree} {l l' : Life Chain σ}

theorem isSome_directParent? :
    (directParent? tree node).isSome ↔
      node.parentId = node.justify.nodeId ∧ tree.contains node.justify.nodeId := by
  constructor
  · intro h
    obtain ⟨below, hbelow⟩ := Option.isSome_iff_exists.1 h
    obtain ⟨hmem, hdirect⟩ := directParent?_spec hbelow
    rw [hdirect.certifies]
    exact ⟨hdirect.follows, NodeTree.contains_of_mem hmem⟩
  · rintro ⟨hparent, hknown⟩
    exact Option.isSome_iff_ne_none.2 (directParent?_ne_none hparent hknown)

theorem Walk.high_eq (h : Walk ctx node l l') :
    l'.memory.high = if (directParent? l.memory.tree node).isSome then
      raise l.memory.high node.justify else l.memory.high := by
  cases h with
  | loose hloose => simp [hloose]
  | one h2 => simp [h2]
  | two h2 | stale h2 | final h2 => simp [h2, lockedBy, settled]

theorem Walk.leaf_eq (h : Walk ctx node l l') : l'.memory.leaf = l.memory.leaf := by
  have hraised : (raisedBy node l).memory.leaf = l.memory.leaf := by
    unfold raisedBy
    split <;> rfl
  cases h with
  | loose => rfl
  | one | two | stale | final => exact hraised

theorem bridged_eq_of_direct {scheme : Crypto.Scheme} (hparent : node.parentId = node.justify.nodeId)
    (h : bridged scheme tree node = .ok tree') : tree' = tree := by
  rcases bridged_cases h with hsame | ⟨hunknown, dummies, hchain, hlast, -⟩
  · exact hsame
  · have hnone : tree.get? node.justify.nodeId = none := by
      rw [hparent] at hunknown
      simpa [NodeTree.contains] using hunknown
    obtain rfl : dummies = [] := by simpa [NodeTree.dummyChain, hnone] using hchain.symm
    cases hlast

theorem memory_of_adopt (hok : (exec (adopt ctx node) t).1 = .ok ()) :
    (exec (adopt ctx node) t).2.memory.leaf = node.id ∧
      (exec (adopt ctx node) t).2.memory.high =
        if node.parentId = node.justify.nodeId ∧
          (t.memory.tree.insert node).contains node.justify.nodeId then
          raise t.memory.high node.justify
        else t.memory.high := by
  obtain ⟨effects, hexec⟩ := exec_adopt_of_ok hok
  have hwalk := walk_exec ctx node (lifeOf t) { holding node t with effects := effects }
  rw [hexec]
  refine ⟨hwalk.leaf_eq, hwalk.high_eq.trans ?_⟩
  simp only [isSome_directParent?]
  rfl

theorem Acceptable.le_high_iff {m : SignedBody} (h : Acceptable ctx m t tree)
    (hok : (exec (onGeneric ctx m) t).1 = .ok ()) :
    (exec (onGeneric ctx m) t).2.memory.leaf = m.body.id ∧
      (m.justify.view ≤ (exec (onGeneric ctx m) t).2.memory.high.view ↔
        m.body.parentId = m.justify.nodeId ∧
          (t.memory.tree.insert m.body).contains m.justify.nodeId ∨
        m.justify.view ≤ t.memory.high.view) := by
  rw [h.exec_eq] at hok ⊢
  obtain ⟨hleaf, hhigh⟩ := memory_of_adopt hok
  refine ⟨hleaf, ?_⟩
  rw [hhigh]
  by_cases hparent : m.body.parentId = m.justify.nodeId
  · have htree : tree = t.memory.tree := bridged_eq_of_direct hparent h.bridged
    split
    · next hdirect => exact iff_of_true (offered_le_raise _ _) (.inl (htree ▸ hdirect))
    · next hloose =>
      refine ⟨.inr, fun hor => hor.resolve_left fun hdirect => hloose ?_⟩
      exact htree ▸ hdirect
  · rw [if_neg fun hdirect => hparent hdirect.1]
    exact ⟨.inr, fun hor => hor.resolve_left fun hdirect => hparent hdirect.1⟩

end Turns

section Steps

variable {l l' : Life Chain σ}

/-- The high certificate of a core does not get older, and all its later NewViews have certificates
no older than it. -/
theorem Reached.reporting (h : Reached ctx known l) (hsteps : ReflTransGen (Step ctx known) l l') :
    l.memory.high.view ≤ l'.memory.high.view ∧ ∃ es, l'.done = l.done ++ es ∧
      ∀ receiver x, .send receiver x ∈ es → x.kind = .newView →
        l.memory.high.view ≤ x.body.justify.view := by
  induction hsteps with
  | refl => exact ⟨UInt64.le_refl _, [], by simp, by simp⟩
  | @tail l₁ l₂ hfirst hstep ih =>
    obtain ⟨hle, es, hdone, hes⟩ := ih
    obtain ⟨es', hdone', hasked⟩ := hstep.asked
    refine ⟨UInt64.le_trans hle hstep.le_high, es ++ es', by rw [hdone', hdone, List.append_assoc],
      fun receiver x hx hkind => ?_⟩
    rcases List.mem_append.1 hx with hx | hx
    · exact hes receiver x hx hkind
    · cases hasked _ hx with
      | report hwrote =>
        rw [hwrote.body_eq]
        exact hle
      | errand hput =>
        obtain ⟨node, hvoted⟩ := (h.steps hfirst).voted hput
        simp [hvoted.wrote.kind_eq] at hkind
      | adopted _ _ _ _ _ hconsequent => cases hconsequent

end Steps

section Runs

variable {l l' later : Life (Memory .chained) σ} {envelope : Envelope} {m : SignedBody}

theorem steps_of_take (h : Lived ctx l) {input : Input} (hpermits : l.Permits input) :
    ReflTransGen (Step ctx fun _ => True) l (l.take ctx input) := by
  have hcourse := course_of_lived h hpermits
  exact ((reached_anyhow h).steps_of_course hcourse trivial).tail (.move .note)

theorem steps_of_becomes (h : Lived ctx l) (hlater : l.Becomes ctx later) :
    ReflTransGen (Step ctx fun _ => True) l later := by
  induction hlater with
  | same => exact .refl
  | take input hfirst hpermits ih => exact ih.trans (steps_of_take (hfirst.lived h) hpermits)
  | retouch app _ ih => exact ih.tail (.move .retouch)

theorem high_le_of_reported (h : Lived ctx l) (hlater : l.Becomes ctx later) {input : Input}
    (hpermits : later.Permits input) {receiver : Member} {x : Letter}
    (hx : .send receiver x ∈ (later.machine.step ctx input).effects) (hkind : x.kind = .newView) :
    (Chain.high l.memory).view ≤ x.body.justify.view := by
  have hreached := reached_anyhow h
  have hsteps := steps_of_becomes h hlater
  have hmono := (hreached.reporting hsteps).1
  obtain ⟨-, es, hdone, hes⟩ :=
    (hreached.steps hsteps).reporting (steps_of_take (hlater.lived h) hpermits)
  obtain rfl : (later.machine.step ctx input).effects = es := List.append_cancel_left hdone
  exact UInt64.le_trans hmono (hes receiver x hx hkind)

/-- Let a core take over a node. The node becomes its leaf. Its high certificate is then no older
than the one in the node if and only if the node directly follows the certified node and that one is
stored, or the high certificate was no older before. In that case, the certificates in all its later
NewViews are no older either. -/
theorem le_high_iff_of_takesOver (h : Lived ctx l)
    (htakes : TakesOver ctx l.machine envelope m) :
    (l.machine.step ctx (.feed envelope)).machine.memory.leaf = m.body.id ∧
    (m.justify.view ≤ (l.machine.step ctx (.feed envelope)).machine.memory.high.view ↔
      m.body.parentId = m.justify.nodeId ∧
        (l.memory.tree.insert m.body).contains m.justify.nodeId ∨
      m.justify.view ≤ l.memory.high.view) ∧
    (m.justify.view ≤ (l.machine.step ctx (.feed envelope)).machine.memory.high.view →
      ∀ later input, (l.take ctx (.feed envelope)).Becomes ctx later → later.Permits input →
      ∀ receiver x, .send receiver x ∈ (later.machine.step ctx input).effects →
        x.kind = .newView → m.justify.view ≤ x.body.justify.view) := by
  obtain ⟨tree, hacceptable, hstep, hok⟩ := htakes.acceptable
  obtain ⟨hleaf, hiff⟩ := hacceptable.le_high_iff hok
  refine ⟨hstep ▸ hleaf, hstep ▸ hiff, fun hle later input hlater hpermits receiver x hx hkind => ?_⟩
  have hlived : Lived ctx (l.take ctx (.feed envelope)) := .take _ h trivial
  exact UInt64.le_trans hle (high_le_of_reported hlived hlater hpermits hx hkind)

end Runs

section Samples

open Legible Cast

/-- A run up to the proposal of view 3. Only the leaders of views 2 and 3 know the certificate of
view 1. -/
def skippedRun : World 4 .chained Unit :=
  (play four .chained () ([.begin 0, .begin 1, .begin 2, .begin 3, .deliver 0 1 0, .deliver 2 1 0] ++
    succession 1 ++ succession 2 ++ [.timeout 1, .timeout 1, .timeout 3, .timeout 0, .timeout 0,
      .deliver 1 0 0, .deliver 3 0 0])).world

def skipping : Letter := (skippedRun 0).letters.getLastD default

theorem skippedRun_spec :
    skipping.envelope.kind = .generic ∧
    (four.context 1).receive skipping.envelope = .ok skipping.signed ∧
    (skippedRun 1).machine.state.view ≤ skipping.signed.view ∧
    (skippedRun 1).machine.state.proposal = none ∧
    ((skippedRun 1).machine.step (four.context 1) (.feed skipping.envelope)).result = .ok () ∧
    skipping.signed.body.parentId ≠ skipping.signed.justify.nodeId ∧
    (Chain.high (skippedRun 1).memory).view < skipping.signed.justify.view := by
  decide +kernel

/-- Member 1 takes over the proposal of view 3, and its high certificate stays older than the one in
the proposal. -/
theorem not_le_high_of_skipping :
    TakesOver (four.context 1) (skippedRun 1).machine skipping.envelope skipping.signed ∧
    ¬ skipping.signed.justify.view ≤ ((skippedRun 1).machine.step (four.context 1)
      (.feed skipping.envelope)).machine.memory.high.view := by
  obtain ⟨hkind, hread, hview, hfree, hok, hbridged, hbehind⟩ := skippedRun_spec
  have htakes : TakesOver (four.context 1) (skippedRun 1).machine skipping.envelope
      skipping.signed := ⟨hkind, hread, hview, fun _ => hfree, hok⟩
  have hlived : Lived (four.context 1) (skippedRun 1) := (Cast.reachable_play ..).lived 1
  have hiff := (le_high_iff_of_takesOver hlived htakes).2.1
  refine ⟨htakes, fun hle => ?_⟩
  rcases hiff.1 hle with ⟨hdirect, -⟩ | hknown
  · exact hbridged hdirect
  · exact UInt64.not_lt.2 hknown hbehind

end Samples

end Concord.Core.Chained
