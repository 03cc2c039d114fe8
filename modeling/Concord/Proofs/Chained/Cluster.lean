import Concord.Proofs.Loyal

/-!
The chained protocol without traitors. A node is a proposal, whose certificate was made by a member
or is the starting one, or it is the root or a dummy, whose certificate names no node. So direct
links lead from proposals to proposals.
-/

namespace Concord.Core.Chained

open Relation

variable {n : Nat} {σ : Type} {g : Group n σ} {w w' : World n .chained σ}

theorem reached_of_reachable {traitors : Finset (Fin n)} (h : Reachable g traitors w) (i : Fin n) :
    Reached (g.context i) (fun _ => True) (w i) :=
  reached_anyhow (h.lived i)

theorem node_of_node {i : Fin n} {b : Body} (h : Node (g.context i) (w i) b) :
    World.Node g w b := by
  refine Grown.mono h fun x hx => ?_
  cases hx with
  | genesis => exact .genesis
  | taken htaken =>
    cases htaken with
    | own hdone hkind => exact .proposed hdone hkind
    | heard hm _ hid => exact .heard hm hid

section Proposals

variable (h : Reachable g ∅ w)

include h

theorem proposal_of_heard {i : Fin n} {m : SignedBody} (hm : ⟨.generic, m⟩ ∈ (w i).heard) :
    m.body ∈ w.proposals m.body.view := by
  obtain ⟨j, -, -, hletter⟩ := h.heard_from hm
  have hdone := h.broadcast_of_letter hletter rfl
  exact World.mem_proposals.2 ⟨⟨j, Life.mem_proposals.2 ⟨_, hdone, .inr rfl, rfl⟩⟩, rfl⟩

theorem proposal_of_taken {i : Fin n} {node : Body} (htaken : Taken (g.context i) (w i) node) :
    node ∈ w.proposals node.view := by
  cases htaken with
  | own hdone hkind =>
    exact World.mem_proposals.2 ⟨⟨i, Life.mem_proposals.2 ⟨_, hdone, .inr hkind, rfl⟩⟩, rfl⟩
  | heard hm => exact proposal_of_heard h hm

theorem node_of_proposal {view : View} {b : Body} (hb : b ∈ w.proposals view) :
    World.Node g w b := by
  obtain ⟨⟨i, hb⟩, hview⟩ := World.mem_proposals.1 hb
  obtain ⟨x, hdone, hkind, rfl⟩ := Life.mem_proposals.1 hb
  exact .root (.proposed hdone ((reached_of_reachable h i).broadcast hdone).2)

theorem proposal_or_genesis {b : Body} (hb : World.Node g w b) :
    b ∈ w.proposals b.view ∨ b.justify = Certificate.genesis := by
  cases hb with
  | dummy => exact .inr rfl
  | root hroot =>
    cases hroot with
    | genesis => exact .inr rfl
    | proposed hdone hkind => exact .inl (proposal_of_taken h (.own hdone hkind))
    | heard hm => exact .inl (proposal_of_heard h hm)

theorem voted_of_heard {i j : Fin n} {m : SignedBody} (hm : ⟨.vote, m⟩ ∈ (w i).heard)
    (hj : m.signer = g.key j) : ∃ receiver view node,
      .postpone view (.send receiver ⟨.vote, m⟩) ∈ (w j).done ∧
        Voted (g.context j) (w j) view receiver ⟨.vote, m⟩ node := by
  have hletter := h.letter_of_signer hm hj
  obtain ⟨receiver, hsend⟩ := h.send_of_letter hletter rfl
  obtain ⟨-, -, ⟨hnewView, -⟩ | ⟨-, view, hdone⟩⟩ := (reached_of_reachable h j).send hsend
  · cases hnewView
  · obtain ⟨node, hvoted⟩ := (reached_of_reachable h j).voted hdone
    exact ⟨receiver, view, node, hdone, hvoted⟩

/-- Without traitors, every certificate is for the proposal of its view. -/
theorem proposal_of_certified {i : Fin n} {qc : Certificate} (hqc : .certified qc ∈ (w i).done) :
    ∃ b ∈ w.proposals qc.view, b.payload = qc.payload ∧ b.id = qc.nodeId := by
  obtain ⟨votes, hcollected, hphase, hpayload, hnodeId⟩ :=
    ((reached_of_reachable h i).formed hqc).votes
  have hquorum := g.quorum_le_of_isQuorum hcollected.quorum
  have hsize := g.four_le
  obtain ⟨m, hm⟩ : ∃ m, m ∈ votes := List.exists_mem_of_length_pos (by omega)
  obtain ⟨j, hj, -⟩ := h.heard_from (hcollected.heard m hm)
  obtain ⟨receiver, view, node, -, hvoted⟩ := voted_of_heard h (hcollected.heard m hm) hj
  have hbody : m.body = voteBody node := hvoted.wrote.body_eq
  have hview : node.view = qc.view := by
    rw [← hcollected.view m hm, SignedBody.view, hbody]
    rfl
  refine ⟨node, hview ▸ proposal_of_taken h hvoted.taken, ?_, ?_⟩
  · rw [← hpayload m hm, hbody]
    rfl
  · rw [← hnodeId m hm, hbody]
    rfl

end Proposals

section Certificates

/-- The subject is that of the starting certificate or of one that a member made for an earlier
view. -/
structure Sound (g : Group n σ) (w : World n .chained σ) (view : View) (subject : Subject) :
    Prop where
  nonzero : subject.nodeId ≠ Digest.zero
  source : subject = (initialHigh (genesisNode g.scheme).id).subject ∨
    subject.view < view ∧ ∃ i qc, .certified qc ∈ (w i).done ∧ qc.subject = subject

theorem Sound.later {view : View} {subject : Subject} (h : Sound g w view subject)
    (hlater : Later w w') : Sound g w' view subject :=
  ⟨h.nonzero, h.source.imp_right fun ⟨hlt, i, qc, hqc, hsubject⟩ =>
    ⟨hlt, i, qc, hlater.done i hqc, hsubject⟩⟩

variable (hfree : CollisionFree g w)

include hfree

theorem lasting_sound (i : Fin n) : Lasting (g.context i) (Sound g w) where
  initial := ⟨hfree.nonzero (.root .genesis), .inl rfl⟩
  mono hle hsound := ⟨hsound.nonzero, hsound.source.imp_right fun ⟨hlt, hqc⟩ =>
    ⟨UInt64.lt_of_lt_of_le hlt hle, hqc⟩⟩
  nonzero hsound := hsound.nonzero

theorem fits_sound {i : Fin n} {l : Life Chain σ} (hl : w i = l)
    (hreached : Reached (g.context i) (fun _ => True) l)
    (hheard : ∀ x ∈ l.heard, x.kind = .newView ∨ x.kind = .generic →
      Sound g w x.body.view x.body.justify.subject) : Fits (Sound g w) l := by
  subst hl
  refine ⟨hheard, fun {qc next} hqc hnext => ⟨?_, .inr ⟨View.lt_next hnext, i, qc, hqc, rfl⟩⟩⟩
  obtain ⟨node, hnode, hid⟩ := (hreached.formed hqc).node
  have hne := hfree.nonzero (node_of_node hnode)
  rw [hid] at hne
  exact hne

omit hfree in
/-- Without traitors and collisions, the certificates in all NewViews and nodes that were sent or
heard are sound. -/
theorem sound_of_reachable (h : Reachable g ∅ w) (hfree : CollisionFree g w) (i : Fin n) (x : Letter)
    (hkind : x.kind = .newView ∨ x.kind = .generic) :
    (x ∈ (w i).heard → Sound g w x.body.view x.body.justify.subject) ∧
      (x ∈ (w i).letters → Sound g w x.body.view x.body.justify.subject) := by
  -- A core's own certificates are sound by what it heard, which others sent before.
  have sent : ∀ {w : World n .chained σ}, Reachable g ∅ w → CollisionFree g w →
      (∀ i, ∀ x ∈ (w i).heard, x.kind = .newView ∨ x.kind = .generic →
        Sound g w x.body.view x.body.justify.subject) →
      ∀ i, ∀ x ∈ (w i).letters, x.kind = .newView ∨ x.kind = .generic →
        Sound g w x.body.view x.body.justify.subject := by
    intro w h hfree hheard i
    have hreached := reached_of_reachable h i
    exact (hreached.fitted (lasting_sound hfree i) (fits_sound hfree rfl hreached (hheard i))).letters
  have heard : ∀ i, ∀ x ∈ (w i).heard, x.kind = .newView ∨ x.kind = .generic →
      Sound g w x.body.view x.body.justify.subject := by
    clear hkind x i
    induction h with
    | init app => simp [Life.initial]
    | @take w k input hreachable hmem hadmits ih =>
      have hlater := later_take (g := g) w k input
      have hold := ih (hfree.earlier hlater)
      intro i x hx hkind
      rcases heard_take hadmits hx with hx | ⟨j, hsent⟩
      · exact (hold i x hx hkind).later hlater
      · have hletter := (hreachable.signer_of_sent hsent).2.2
        exact (sent hreachable (hfree.earlier hlater) hold j x hletter hkind).later hlater
    | @retouch w k app hreachable ih =>
      have hlater := later_retouch w k app
      intro i x hx hkind
      exact (ih (hfree.earlier hlater) i x (heard_retouch hx) hkind).later hlater
  exact ⟨fun hx => heard i x hx hkind, fun hx => sent h hfree heard i x hx hkind⟩

end Certificates

section Links

variable (h : Reachable g ∅ w) (hfree : CollisionFree g w)

include h hfree

theorem sound_of_proposal {view : View} {b : Body} (hb : b ∈ w.proposals view) :
    Sound g w view b.justify.subject := by
  obtain ⟨⟨i, hb⟩, hview⟩ := World.mem_proposals.1 hb
  obtain ⟨x, hdone, hkind, rfl⟩ := Life.mem_proposals.1 hb
  have hgeneric : x.kind = .generic := ((reached_of_reachable h i).broadcast hdone).2
  have hletter : x ∈ (w i).letters := Life.mem_letters.2 (.inr hdone)
  exact hview ▸ (sound_of_reachable h hfree i x (.inr hgeneric)).2 hletter

/-- A proposal certifies the genesis node or the proposal of an earlier view. -/
theorem certified_by_proposal {view : View} {b below : Body} (hb : b ∈ w.proposals view)
    (hbelow : World.Node g w below) (hid : b.justify.nodeId = below.id) :
    below = genesisNode g.scheme ∨ b.justify.view < view ∧ below ∈ w.proposals b.justify.view ∧
      ∃ i qc, .certified qc ∈ (w i).done ∧ qc.view = b.justify.view := by
  rcases (sound_of_proposal h hfree hb).source with hinitial | ⟨hlt, i, qc, hqc, hsubject⟩
  · refine .inl (hfree.distinct hbelow (.root .genesis) ?_)
    exact hid.symm.trans (congrArg Subject.nodeId hinitial)
  · have hview : qc.view = b.justify.view := congrArg Subject.view hsubject
    have hnodeId : qc.nodeId = b.justify.nodeId := congrArg Subject.nodeId hsubject
    obtain ⟨parent, hparent, -, hparentId⟩ := proposal_of_certified h hqc
    have hsame : below = parent := by
      refine hfree.distinct hbelow (node_of_proposal h hparent) ?_
      rw [← hid, ← hnodeId, hparentId]
    exact .inr ⟨hlt, hview ▸ hsame ▸ hparent, i, qc, hqc, hview⟩

theorem proposal_of_certifies {b below : Body} (hb : World.Node g w b)
    (hbelow : World.Node g w below) (hid : b.justify.nodeId = below.id) :
    b ∈ w.proposals b.view := by
  rcases proposal_or_genesis h hb with hproposal | hjustify
  · exact hproposal
  · have hzero : below.id = Digest.zero := by rw [← hid, hjustify]; rfl
    exact absurd hzero (hfree.nonzero hbelow)

/-- The node is a proposal, and two proposals follow it directly, the upper of which is
certified. -/
structure Decided (g : Group n σ) (w : World n .chained σ) (b : Body) : Prop where
  links : ∃ b1 b0, b1 ∈ w.proposals b1.view ∧ b0 ∈ w.proposals b0.view ∧ Direct b1 b0 ∧
    Direct b0 b ∧ b.view = b0.justify.view ∧ b0.view = b1.justify.view ∧
    ∃ i qc, .certified qc ∈ (w i).done ∧ qc.view = b1.view

theorem decided_of_delivered {i : Fin n} {view : View} {payload : Payload}
    (hdone : .deliver view payload ∈ (w i).done) :
    ∃ b ∈ w.proposals view, b.payload = payload ∧ Decided g w b := by
  obtain ⟨top, b, htaken, ⟨⟨b1, b0, h1, h0, hdirect2, hdirect1, hdirect0⟩, hb⟩, hroot, rfl, rfl⟩ :=
    (reached_of_reachable h i).delivered hdone
  have htop := proposal_of_taken h htaken
  have hb := node_of_node hb
  have hnode1 := node_of_node h1
  have hnode0 := node_of_node h0
  have hb0 := proposal_of_certifies h hfree hnode0 hb hdirect0.certifies
  have hb1 := proposal_of_certifies h hfree hnode1 hnode0 hdirect1.certifies
  -- A proposal is not the root, whose certificate names nothing.
  have hother : ∀ {c}, c ∈ w.proposals c.view → c ≠ genesisNode g.scheme := by
    rintro c hc rfl
    exact (sound_of_proposal h hfree hc).nonzero rfl
  obtain ⟨-, hbview, -⟩ :=
    (certified_by_proposal h hfree hb0 hb hdirect0.certifies).resolve_left fun heq =>
      hroot (heq ▸ rfl)
  obtain ⟨-, hb0view, -⟩ :=
    (certified_by_proposal h hfree hb1 hnode0 hdirect1.certifies).resolve_left (hother hb0)
  obtain ⟨-, hb1view, j, qc, hqc, hqcview⟩ :=
    (certified_by_proposal h hfree htop hnode1 hdirect2.certifies).resolve_left (hother hb1)
  have hsame : b.view = b0.justify.view := (World.mem_proposals.1 hbview).2
  have hsame0 : b0.view = b1.justify.view := (World.mem_proposals.1 hb0view).2
  have hsame1 : b1.view = top.justify.view := (World.mem_proposals.1 hb1view).2
  exact ⟨b, hsame ▸ hbview, rfl, ⟨b1, b0, hb1, hb0, hdirect1, hdirect0, hsame, hsame0, j, qc, hqc,
    hqcview.trans hsame1.symm⟩⟩

end Links

end Concord.Core.Chained
