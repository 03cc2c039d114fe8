import Concord.Proofs.Chained.Cluster
import Concord.Proofs.Legible

/-!
Decisions of the chained protocol without traitors. Each decision is an ancestor of the later ones,
if every member stores the node that its proposal certifies. A member that lacks this node does not
raise its high certificate, and a leader that lacks it proposes on its leaf.
-/

namespace Concord.Core.Chained

open Relation

variable {n : Nat} {σ : Type} {g : Group n σ} {w : World n .chained σ}

/-- At the end of every turn, each member stores the node that its proposal certifies. -/
def AllGrounded (w : World n .chained σ) : Prop := ∀ i, ∀ p ∈ (w i).past, Grounded p

theorem reached_grounded {traitors : Finset (Fin n)} (h : Reachable g traitors w)
    (hgrounded : AllGrounded w) (i : Fin n) : Reached (g.context i) Grounded (w i) :=
  (reached_of_lived (h.lived i) (hgrounded i)).2

/-- A path of parent links leads from the second node down to the first. -/
def Ancestor (g : Group n σ) (w : World n .chained σ) : Body → Body → Prop :=
  ReflTransGen (Link (World.Node g w))

section Seats

variable (h : Reachable g ∅ w) (hfree : CollisionFree g w) (hgrounded : AllGrounded w)

include h hfree hgrounded

theorem tip_of_proposal {b below : Body} (hb : b ∈ w.proposals b.view)
    (hbelow : below ∈ w.proposals b.justify.view) (hid : b.justify.nodeId = below.id) :
    ∃ tip, Tip (World.Node g w) below b.view tip ∧ b.parentId = tip.id := by
  have hnode := node_of_proposal h hbelow
  have hbview : below.view = b.justify.view := (World.mem_proposals.1 hbelow).2
  have hjustify : below.justify ≠ Certificate.genesis := fun hgenesis => by
    refine (sound_of_proposal h hfree hbelow).nonzero ?_
    rw [hgenesis]
    rfl
  obtain ⟨⟨i, hmem⟩, -⟩ := World.mem_proposals.1 hb
  obtain ⟨x, hdone, -, rfl⟩ := Life.mem_proposals.1 hmem
  cases (reached_grounded h hgrounded i).seated hdone with
  | certified hstart hstartId htip hparent =>
    obtain rfl : _ = below :=
      hfree.distinct (node_of_node hstart) hnode (hstartId.trans hid)
    exact ⟨_, htip.mono fun _ => node_of_node, hparent⟩
  | dummy hd hdId hdJustify =>
    obtain rfl : _ = below := hfree.distinct (node_of_node hd) hnode (hdId.trans hid)
    exact absurd hdJustify hjustify
  | itself hself =>
    obtain rfl : x.body = below :=
      hfree.distinct (node_of_proposal h hb) hnode (hself.trans hid)
    rcases certified_by_proposal h hfree hb hnode hid with hgenesis | ⟨hlt, -⟩
    · exact absurd (by rw [hgenesis]; rfl) hjustify
    · exact absurd hlt (hbview ▸ UInt64.lt_irrefl _)

theorem ancestor_of_proposal {b below : Body} (hb : b ∈ w.proposals b.view)
    (hbelow : below ∈ w.proposals b.justify.view) (hid : b.justify.nodeId = below.id) :
    Ancestor g w below b := by
  obtain ⟨tip, htip, hparent⟩ := tip_of_proposal h hfree hgrounded hb hbelow hid
  exact htip.path.tail ⟨htip.mem, node_of_proposal h hb, hparent⟩

theorem view_of_direct {b below : Body} (hb : b ∈ w.proposals b.view)
    (hbelow : below ∈ w.proposals b.justify.view) (hdirect : Direct b below) :
    b.view.toNat = below.view.toNat + 1 := by
  have hnode := node_of_proposal h hbelow
  have hsound := sound_of_proposal h hfree hbelow
  obtain ⟨tip, htip, hparent⟩ := tip_of_proposal h hfree hgrounded hb hbelow hdirect.certifies
  have hsame : tip = below :=
    hfree.distinct htip.mem hnode (hparent.symm.trans hdirect.follows)
  rcases htip.near with ⟨-, hle⟩ | hgenesis
  · rcases certified_by_proposal h hfree hb hnode hdirect.certifies with hroot | ⟨hlt, -⟩
    · exact absurd rfl (hroot ▸ hsound).nonzero
    · have hlt := UInt64.lt_iff_toNat_lt.1 hlt
      have hbview : below.view = b.justify.view := (World.mem_proposals.1 hbelow).2
      rw [hbview] at hle ⊢
      omega
  · refine absurd ?_ hsound.nonzero
    rw [← hsame, hgenesis]
    rfl

end Seats

section Quorums

variable (h : Reachable g ∅ w)

include h

theorem exists_voters {i : Fin n} {qc : Certificate} (hqc : .certified qc ∈ (w i).done) :
    ∃ seats : Finset (Fin n), n - n / 3 ≤ seats.card ∧ ∀ j ∈ seats,
      .certified qc ∈ (w j).done ∨
        ∃ receiver x, .postpone qc.view (.send receiver x) ∈ (w j).done := by
  classical
  obtain ⟨votes, hcollected, hphase, -, -⟩ := ((reached_of_reachable h i).formed hqc).votes
  obtain ⟨seats, hcard, hself, hseats⟩ := hcollected.exists_seats hphase fun m hm => by
    obtain ⟨j, hj, hne, -⟩ := h.heard_from (hcollected.heard m hm)
    exact ⟨j, hj, hne⟩
  refine ⟨insert i seats, ?_, fun j hj => ?_⟩
  · rw [Finset.card_insert_of_notMem hself]
    omega
  · rcases Finset.mem_insert.1 hj with rfl | hj
    · exact .inl hqc
    · obtain ⟨m, hm, hj⟩ := hseats j hj
      obtain ⟨receiver, view, node, hdone, hvoted⟩ :=
        voted_of_heard h (hcollected.heard m hm) hj
      have hbody : m.body = voteBody node := hvoted.wrote.body_eq
      have hview : m.body.view = qc.view := hcollected.view m hm
      have hsame : view = qc.view := by
        rw [← hvoted.view_eq, ← hview, hbody]
        rfl
      exact .inr ⟨receiver, _, hsame ▸ hdone⟩

theorem exists_senders {j : Fin n} {view : View} {newViews : List SignedBody}
    (hcollected : Collected (g.context j) (w j).heard .newView view newViews) :
    ∃ seats : Finset (Fin n), n - n / 3 - 1 ≤ seats.card ∧
      ∀ k ∈ seats, ∃ m ∈ newViews, ⟨.newView, m⟩ ∈ (w k).letters := by
  have hsender : ∀ m ∈ newViews, ∃ k, m.signer = g.key k ∧ k ≠ j ∧
      ⟨.newView, m⟩ ∈ (w k).letters := fun m hm => h.heard_from (hcollected.heard m hm)
  have hphase : ∀ m ∈ newViews, m.phase = .newView := fun m hm => by
    obtain ⟨k, -, -, hletter⟩ := hsender m hm
    obtain ⟨receiver, hsend⟩ := h.send_of_letter hletter rfl
    obtain ⟨-, -, ⟨-, hphase⟩ | ⟨hvote, -⟩⟩ := (reached_of_reachable h k).send hsend
    · exact hphase
    · cases hvote
  obtain ⟨seats, hcard, -, hseats⟩ := hcollected.exists_seats hphase fun m hm => by
    obtain ⟨k, hk, hne, -⟩ := hsender m hm
    exact ⟨k, hk, hne⟩
  refine ⟨seats, hcard, fun k hk => ?_⟩
  obtain ⟨m, hm, hkey⟩ := hseats k hk
  exact ⟨m, hm, h.letter_of_signer (hcollected.heard m hm) hkey⟩

end Quorums

section Reports

variable (h : Reachable g ∅ w) (hgrounded : AllGrounded w)

include h hgrounded

/-- A member that voted for `b1` or certified it reports no older certificate in a later view than
the one in `b1`. -/
theorem le_reported {k : Fin n} {b1 : Body} {qc : Certificate} {m : SignedBody}
    (hb1 : b1 ∈ w.proposals qc.view) (hdirect : b1.parentId = b1.justify.nodeId)
    (hle : b1.justify.view ≤ qc.view)
    (hvoted : .certified qc ∈ (w k).done ∨
      ∃ receiver x, .postpone qc.view (.send receiver x) ∈ (w k).done)
    (hm : ⟨.newView, m⟩ ∈ (w k).letters) (hlt : qc.view < m.view) :
    b1.justify.view ≤ m.justify.view := by
  have hreported := (reached_grounded h hgrounded k).reported hm (.inl rfl)
  rcases hvoted with hqc | ⟨receiver, x, hdone⟩
  · have hhonoured : qc.view ≤ m.justify.view := hreported.honoured _ hqc _ rfl hlt
    exact UInt64.le_trans hle hhonoured
  · obtain ⟨node, hvoted, hbound⟩ := hreported.honoured _ hdone _ rfl hlt
    have hnode := proposal_of_taken h hvoted.taken
    rw [hvoted.view_eq] at hnode
    obtain rfl := h.unique_proposal hb1 hnode
    exact hbound hdirect

/-- If `b1` is certified and directly follows the node that it certifies, every later proposal has a
certificate no older than the one in `b1`. -/
theorem le_justify_of_decided {i : Fin n} {qc : Certificate} {b1 b : Body}
    (hqc : .certified qc ∈ (w i).done) (hb1 : b1 ∈ w.proposals qc.view)
    (hdirect : b1.parentId = b1.justify.nodeId) (hle : b1.justify.view ≤ qc.view)
    (hb : b ∈ w.proposals b.view) (hlt : qc.view < b.view) :
    b1.justify.view ≤ b.justify.view := by
  obtain ⟨⟨j, hmem⟩, -⟩ := World.mem_proposals.1 hb
  obtain ⟨x, hdone, -, rfl⟩ := Life.mem_proposals.1 hmem
  cases (reached_of_reachable h j).opened hdone with
  | @certified qc' hqc' hnext hhigh =>
    refine UInt64.le_trans (UInt64.le_trans hle ?_) hhigh
    rw [UInt64.le_iff_toNat_le]
    have hnext := View.toNat_next hnext
    have hlt := UInt64.lt_iff_toNat_lt.1 hlt
    omega
  | gathered hcollected hhighest =>
    obtain ⟨voters, hvoters, hvoted⟩ := exists_voters h hqc
    obtain ⟨senders, hsenders, hsent⟩ := exists_senders h hcollected
    obtain ⟨k, hk, hk'⟩ := exists_mem_inter g.four_le hsenders hvoters
    obtain ⟨m, hm, hletter⟩ := hsent k hk
    have hview : qc.view < m.view := hlt.trans_eq (hcollected.view m hm).symm
    exact UInt64.le_trans
      (le_reported h hgrounded hb1 hdirect hle (hvoted k hk') hletter hview)
      (hhighest m hm)

end Reports

section Descent

variable (h : Reachable g ∅ w) (hfree : CollisionFree g w) (hgrounded : AllGrounded w)

include h hfree hgrounded

/-- A decided node is an ancestor of every proposal of a later view. -/
theorem ancestor_of_decided {b : Body} (hbmem : b ∈ w.proposals b.view) (hdecided : Decided g w b)
    {c : Body} (hc : c ∈ w.proposals c.view) (hlt : b.view < c.view) : Ancestor g w b c := by
  obtain ⟨b1, b0, hb1, hb0, hdirect1, hdirect0, hview, hview0, i, qc, hqc, hqcview⟩ := hdecided
  have hnext0 := view_of_direct h hfree hgrounded hb0 (hview ▸ hbmem) hdirect0
  have hnext1 := view_of_direct h hfree hgrounded hb1 (hview0 ▸ hb0) hdirect1
  have hbelow0 := ancestor_of_proposal h hfree hgrounded hb0 (hview ▸ hbmem) hdirect0.certifies
  have hbelow1 := ancestor_of_proposal h hfree hgrounded hb1 (hview0 ▸ hb0) hdirect1.certifies
  -- The views of the chain have no other proposals; all later ones start from within it or above.
  induction hk : c.view.toNat using Nat.strong_induction_on generalizing c with
  | _ k ih =>
    have hlt := UInt64.lt_iff_toNat_lt.1 hlt
    by_cases h0 : c.view.toNat = b0.view.toNat
    · rw [UInt64.toNat_inj.1 h0] at hc
      obtain rfl := h.unique_proposal hb0 hc
      exact hbelow0
    by_cases h1 : c.view.toNat = b1.view.toNat
    · rw [UInt64.toNat_inj.1 h1] at hc
      obtain rfl := h.unique_proposal hb1 hc
      exact hbelow0.trans hbelow1
    have hafter : qc.view < c.view := by
      rw [hqcview, UInt64.lt_iff_toNat_lt]
      omega
    have hle : b1.justify.view ≤ qc.view := by
      rw [hqcview, ← hview0, UInt64.le_iff_toNat_le]
      omega
    have hback := le_justify_of_decided h hgrounded hqc (hqcview ▸ hb1)
      (hdirect1.follows.trans hdirect1.certifies.symm) hle hc hafter
    rw [← hview0, UInt64.le_iff_toNat_le] at hback
    rcases (sound_of_proposal h hfree hc).source with hinitial | ⟨hearlier, j, qc', hqc', hsubject⟩
    · have hzero : c.justify.view = 0 := congrArg Subject.view hinitial
      rw [hzero] at hback
      simp at hback
      omega
    · obtain ⟨parent, hparent, -, hid⟩ := proposal_of_certified h hqc'
      have hqcview' : qc'.view = c.justify.view := congrArg Subject.view hsubject
      have hnodeId : qc'.nodeId = c.justify.nodeId := congrArg Subject.nodeId hsubject
      rw [hqcview'] at hparent
      have hpview : parent.view = c.justify.view := (World.mem_proposals.1 hparent).2
      have hearlier : c.justify.view.toNat < c.view.toNat := UInt64.lt_iff_toNat_lt.1 hearlier
      have hchain := ih parent.view.toNat (by rw [hpview]; omega) (hpview ▸ hparent)
        (by rw [UInt64.lt_iff_toNat_lt, hpview]; omega) rfl
      exact hchain.trans
        (ancestor_of_proposal h hfree hgrounded hc hparent (hnodeId.symm.trans hid.symm))

omit h hfree hgrounded in
/-- Without traitors and collisions, if every member stores the node that its proposal certifies at
the end of each turn, then of two decided proposals the earlier one is an ancestor of the later
one. -/
theorem decision_ancestor (h : Reachable g ∅ w) (hfree : CollisionFree g w)
    (hgrounded : AllGrounded w) {i j : Fin n} {view view' : View} {p p' : Payload}
    (hp : .deliver view p ∈ (w i).done) (hp' : .deliver view' p' ∈ (w j).done)
    (hlt : view < view') : ∃ b ∈ w.proposals view, ∃ b' ∈ w.proposals view',
      b.payload = p ∧ b'.payload = p' ∧ Ancestor g w b b' := by
  obtain ⟨b, hb, hpayload, hdecided⟩ := decided_of_delivered h hfree hp
  obtain ⟨b', hb', hpayload', -⟩ := decided_of_delivered h hfree hp'
  obtain ⟨-, rfl⟩ := World.mem_proposals.1 hb
  obtain ⟨-, rfl⟩ := World.mem_proposals.1 hb'
  exact ⟨b, hb, b', hb', hpayload, hpayload',
    ancestor_of_decided h hfree hgrounded hb hdecided hb' hlt⟩

end Descent

open Legible in
theorem allGrounded_chainedRun : AllGrounded chainedRun := by
  have hall : ∀ i, (chainedRun i).past.all fun p : State × Chain => decide (Grounded p) := by
    decide +kernel
  intro i (p : State × Chain) hp
  exact of_decide_eq_true (List.all_eq_true.1 (hall i) p hp)

open Legible in
/-- The node decided for view 0 is an ancestor of the one decided for view 1. -/
theorem second_decision_ancestor : ∃ b ∈ chainedRun.proposals 0, ∃ b' ∈ chainedRun.proposals 1,
    b.payload = payload 1 ∧ b'.payload = payload 2 ∧ Ancestor four chainedRun b b' :=
  decision_ancestor (Cast.reachable_play ..) (collisionFree_of_parted rfl chainedRun_spec.1)
    allGrounded_chainedRun chainedRun_spec.2.1 chainedRun_spec.2.2 (by decide)

end Concord.Core.Chained
