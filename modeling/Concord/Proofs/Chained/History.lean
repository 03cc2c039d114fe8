import Concord.Proofs.Chained.Steps

/-!
The effects of a core of the chained protocol, with the nodes and messages that each of them depends
on. The inputs of the core are arbitrary.
-/

namespace Concord.Core.Chained

open Handler Relation

variable {σ : Type} {ctx : Context σ} {l l' : Life Chain σ} {known : State × Chain → Prop}

theorem Step.ascends (h : Step ctx known l l') : l.state.view < l'.state.view ∨
    l.state.view = l'.state.view ∧ (l.state.proposal.isSome → l'.state.proposal.isSome) := by
  cases h with
  | accept hm hview =>
    rcases UInt64.lt_or_eq_of_le hview with hlt | heq
    · exact .inl (by simpa [State.jump_view hview] using hlt)
    · exact .inr (by simp [State.jump_view hview, heq])
  | announce _ _ _ _ _ _ hmid => exact .inr (by simp [hmid])
  | adopt _ _ _ hadopted =>
    exact .inr ⟨hadopted.steady.view.symm, by simp [hadopted.steady.proposal]⟩
  | move hmove => exact hmove.ascends

theorem Step.le_view (h : Step ctx known l l') : l.state.view ≤ l'.state.view := by
  rcases h.ascends with hlt | ⟨heq, -⟩
  · exact UInt64.le_of_lt hlt
  · exact heq ▸ UInt64.le_refl _

theorem Step.proposals (h : Step ctx known l l') : l'.proposals = l.proposals ∨
    ∃ node, l'.proposals = l.proposals ++ [node] ∧ ctx.leads l.state.view ∧
      l.state.proposal = none ∧ l'.state.view = l.state.view ∧ l'.state.proposal.isSome ∧
      node.view = l.state.view := by
  cases h with
  | accept => exact .inl (by simp [Life.proposals_after, List.filterMap_cons])
  | @announce _ _ tree parentId data app node letter _ hleads hproposal _ hnode hwrote hmid =>
    refine .inr ⟨node, ?_, hleads, hproposal, by simp [hmid], by simp [hmid], by rw [hnode]; rfl⟩
    simp [hmid, Life.proposals_after, List.filterMap_cons, Effect.proposal?, hwrote.kind_eq,
      hwrote.body_eq]
  | adopt _ _ _ hadopted =>
    obtain ⟨es, hdone, hes⟩ := hadopted.asked
    have hnone : es.filterMap Effect.proposal? = [] := by
      refine List.filterMap_eq_nil_iff.2 fun e he => ?_
      cases hes e he <;> rfl
    exact .inl (by simp [Life.proposals, hdone, hnone])
  | move hmove =>
    refine .inl ?_
    cases hmove with
    | gather hgather => cases hgather; simp [Life.proposals_after]
    | certify hcertify => cases hcertify; simp [Life.proposals_after, List.filterMap_cons]
    | errand =>
      rw [Life.proposals_after]
      dsimp only
      split <;> simp
    | hear | note | retouch | stop => rfl
    | _ => simp [Life.proposals_after, List.filterMap_cons, proposals_posted]

/-- The proposals are orderly, and a core that proposed in its view has a proposal. -/
structure Ordered (ctx : Context σ) (l : Life Chain σ) : Prop where
  orderly : l.Orderly ctx
  kept : ∀ b ∈ l.proposals, b.view = l.state.view → l.state.proposal.isSome

theorem Reached.ordered (h : Reached ctx known l) : Ordered ctx l := by
  induction h with
  | born app => exact ⟨⟨List.Pairwise.nil, nofun, nofun⟩, nofun⟩
  | @step l l' hreached hstep ih =>
    obtain ⟨horderly, hkept⟩ := ih
    rcases hstep.proposals with hsame | ⟨node, hmore, hleads, hnone, hview, hsome, hnode⟩
    · refine ⟨horderly.same hsame hstep.le_view, fun b hb heq => ?_⟩
      have hold := horderly.le_view b (hsame ▸ hb)
      rcases hstep.ascends with hlt | ⟨hsameView, hproposal⟩
      · exact absurd (UInt64.lt_of_le_of_lt hold hlt) (heq ▸ UInt64.lt_irrefl _)
      · exact hproposal (hkept b (hsame ▸ hb) (heq.trans hsameView.symm))
    · -- All earlier proposals are of earlier views, for this view had none.
      have hearlier : ∀ b ∈ l.proposals, b.view < l.state.view := fun b hb =>
        UInt64.lt_of_le_of_ne (horderly.le_view b hb) fun heq => by
          simpa [hnone] using hkept b hb heq
      exact ⟨horderly.append hmore hleads hnode hview hearlier, fun _ _ _ => hsome⟩

inductive Rooted (ctx : Context σ) (l : Life Chain σ) : Body → Prop
  | genesis : Rooted ctx l (genesisNode ctx.scheme)
  | taken {b : Body} : Taken ctx l b → Rooted ctx l b

/-- The genesis node, the nodes that the core proposed or heard, and the dummies on top of them. -/
def Node (ctx : Context σ) (l : Life Chain σ) : Body → Prop := Grown ctx.scheme (Rooted ctx l)

theorem Step.node {b : Body} (h : Step ctx known l l') (hb : Node ctx l b) : Node ctx l' b := by
  refine Grown.mono hb fun x hx => ?_
  cases hx with
  | genesis => exact .genesis
  | taken htaken => exact .taken (h.taken htaken)

structure Planted (ctx : Context σ) (l : Life Chain σ) : Prop where
  nodes : ∀ x ∈ l.memory.tree.nodes, Node ctx l x
  genesisId : l.memory.tree.genesisId = (genesisNode ctx.scheme).id

theorem Reached.planted (h : Reached ctx known l) : Planted ctx l := by
  induction h with
  | born app =>
    refine ⟨fun x hx => ?_, rfl⟩
    obtain rfl : x = genesisNode ctx.scheme := List.mem_singleton.1 hx
    exact .root .genesis
  | @step l l' hreached hstep ih =>
    obtain ⟨hgenesis, hnodes⟩ := hstep.tree
    refine ⟨fun x hx => ?_, hgenesis.trans ih.genesisId⟩
    rcases hnodes x hx with hx | ⟨⟨hgrown, -⟩⟩ | ⟨-, -, htaken⟩
    · exact hstep.node (ih.nodes x hx)
    · exact hstep.node (hgrown.mono ih.nodes).join
    · exact hstep.node (.root (.taken htaken))

section Certifying

structure Votes (ctx : Context σ) (l : Life Chain σ) (qc : Certificate) (votes : List SignedBody) :
    Prop where
  collected : Collected ctx l.heard .vote qc.view votes
  phase : ∀ m ∈ votes, m.phase = .generic
  payload : ∀ m ∈ votes, m.body.payload = qc.payload
  nodeId : ∀ m ∈ votes, m.body.parentId = qc.nodeId

/-- The core made `qc` from a quorum of votes as the leader of the next view, for a node that it can
store. -/
structure Formed (ctx : Context σ) (l : Life Chain σ) (qc : Certificate) : Prop where
  votes : ∃ votes, Votes ctx l qc votes
  leads : ∃ next, qc.view.next? = some next ∧ ctx.leads next ∧ next ≤ l.state.view
  node : ∃ node, Node ctx l node ∧ node.id = qc.nodeId

theorem Formed.step {qc : Certificate} (h : Formed ctx l qc) (hstep : Step ctx known l l') :
    Formed ctx l' qc := by
  obtain ⟨⟨votes, hvotes⟩, ⟨next, hnext, hleads, hle⟩, ⟨node, hnode, hid⟩⟩ := h
  exact ⟨⟨votes, { hvotes with collected := hvotes.collected.mono hstep.heard_subset }⟩,
    ⟨next, hnext, hleads, UInt64.le_trans hle hstep.le_view⟩, ⟨node, hstep.node hnode, hid⟩⟩

theorem votes_of_votesFor {s : State} {qc : Certificate} {votes : List Vote}
    (hlog : s.votes.Holds .vote l.heard)
    (h : votesFor ctx s qc.view qc.nodeId qc.payload = some votes) :
    ∃ messages, votes = messages.map SignedBody.vote ∧ Votes ctx l qc messages := by
  unfold votesFor at h
  simp only [List.length_map] at h
  split at h
  · next hquorum =>
    have hmem : ∀ m ∈ s.votes.matching qc.view .generic
        (fun m => m.body.parentId = qc.nodeId && m.body.payload = qc.payload), _ :=
      fun _ => MessageLog.mem_matching.1
    refine ⟨_, (Option.some.inj h).symm,
      ⟨fun m hm => hlog.heard m (hmem m hm).1, fun m hm => (hmem m hm).2.1, ?_, hquorum⟩,
      fun m hm => (hmem m hm).2.2.1, fun m hm => ?_, fun m hm => ?_⟩
    · exact hlog.indexed.nodup.sublist (List.filter_sublist.map _)
    · have haccept := (hmem m hm).2.2.2
      simp only [Bool.and_eq_true, decide_eq_true_eq] at haccept
      exact haccept.2
    · have haccept := (hmem m hm).2.2.2
      simp only [Bool.and_eq_true, decide_eq_true_eq] at haccept
      exact haccept.1
  · cases h

theorem Reached.formed (h : Reached ctx known l) {qc : Certificate} (hqc : .certified qc ∈ l.done) :
    Formed ctx l qc := by
  refine h.forall_asked .certified (P := fun l qc => Formed ctx l qc)
    (fun hstep hold => hold.step hstep) (fun hreached hstep hasked => ?_) qc hqc
  cases hasked with
  | certified hview hsame hnext hleads hvotes hnode hid =>
    obtain ⟨messages, -, hmessages⟩ := votes_of_votesFor hreached.logged.votes hvotes
    refine ⟨⟨messages, { hmessages with
      collected := hmessages.collected.mono hstep.heard_subset }⟩, ⟨_, hnext, hleads, ?_⟩, _, ?_, hid⟩
    · exact hsame ▸ UInt64.le_refl _
    · exact hstep.node (hreached.planted.nodes _ hnode)
  | adopted _ _ _ _ _ hconsequent => cases hconsequent

end Certifying

section Sending

/-- The letter is a vote for a node of `view` that the core took over, addressed to another
member. -/
structure Voted (ctx : Context σ) (l : Life Chain σ) (view : View) (receiver : Member) (x : Letter)
    (node : Body) : Prop where
  taken : Taken ctx l node
  view_eq : node.view = view
  wrote : ctx.Wrote .vote (voteBody node) x
  other : receiver.key ≠ ctx.me

theorem Reached.voted (h : Reached ctx known l) {view : View} {receiver : Member} {x : Letter}
    (hx : .postpone view (.send receiver x) ∈ l.done) :
    ∃ node, Voted ctx l view receiver x node := by
  refine h.forall_done (P := fun l e => ∀ view receiver x, e = .postpone view (.send receiver x) →
      ∃ node, Voted ctx l view receiver x node)
    (fun hstep hold view receiver x he => ?_)
    (fun {l l' e} hreached hstep hasked view receiver x he => ?_) _ hx _ _ _ rfl
  · obtain ⟨node, hvoted⟩ := hold view receiver x he
    exact ⟨node, { hvoted with taken := hstep.taken hvoted.taken }⟩
  · subst he
    cases hasked with
    | adopted _ hview htaken _ _ hconsequent =>
      cases hconsequent with
      | vote _ hother hwrote => exact ⟨_, hstep.taken htaken, hview, hwrote, hother⟩

theorem Reached.send (h : Reached ctx known l) {receiver : Member} {x : Letter}
    (hx : .send receiver x ∈ l.done) : x.signed.signer = ctx.me ∧ receiver.key ≠ ctx.me ∧
      (x.kind = .newView ∧ x.body.phase = .newView ∨
        x.kind = .vote ∧ ∃ view, .postpone view (.send receiver x) ∈ l.done) := by
  refine h.forall_done (P := fun l e => ∀ receiver x, e = .send receiver x →
      x.signed.signer = ctx.me ∧ receiver.key ≠ ctx.me ∧
        (x.kind = .newView ∧ x.body.phase = .newView ∨
          x.kind = .vote ∧ ∃ view, .postpone view (.send receiver x) ∈ l.done))
    (fun hstep hold receiver x he => ?_)
    (fun {l l' e} hreached hstep hasked receiver x he => ?_) _ hx _ _ rfl
  · obtain ⟨hsigner, hother, hkind⟩ := hold receiver x he
    exact ⟨hsigner, hother, hkind.imp_right fun ⟨hvote, view, hdone⟩ =>
      ⟨hvote, view, hstep.done_subset hdone⟩⟩
  · subst he
    cases hasked with
    | report hwrote hother =>
      exact ⟨hwrote.signer_eq, hother, .inl ⟨hwrote.kind_eq, by rw [hwrote.body_eq]; rfl⟩⟩
    | errand hdone hother =>
      obtain ⟨node, hvoted⟩ := hreached.voted hdone
      exact ⟨hvoted.wrote.signer_eq, hother,
        .inr ⟨hvoted.wrote.kind_eq, _, hstep.done_subset hdone⟩⟩
    | adopted _ _ _ _ _ hconsequent => cases hconsequent

theorem Reached.broadcast (h : Reached ctx known l) {x : Letter} (hx : .broadcast x ∈ l.done) :
    x.signed.signer = ctx.me ∧ x.kind = .generic := by
  refine h.forall_asked .broadcast (P := fun _ x => x.signed.signer = ctx.me ∧ x.kind = .generic)
    (fun _ hold => hold) (fun _ _ hasked => ?_) x hx
  cases hasked with
  | propose _ _ hwrote => exact ⟨hwrote.signer_eq, hwrote.kind_eq⟩
  | adopted _ _ _ _ _ hconsequent => cases hconsequent

end Sending

section Certificates

variable {fit : View → Subject → Prop}

/-- A property of views and subjects that holds of the starting certificate, persists in later views
and excludes the identity zero. -/
structure Lasting (ctx : Context σ) (fit : View → Subject → Prop) : Prop where
  initial : fit 0 (initialHigh (genesisNode ctx.scheme).id).subject
  mono : ∀ {view view' subject}, view ≤ view' → fit view subject → fit view' subject
  nonzero : ∀ {view subject}, fit view subject → subject.nodeId ≠ Digest.zero

/-- The property holds of all certificates that the core heard or made. -/
structure Fits (fit : View → Subject → Prop) (l : Life Chain σ) : Prop where
  heard : ∀ x ∈ l.heard, x.kind = .newView ∨ x.kind = .generic →
    fit x.body.view x.body.justify.subject
  certified : ∀ {qc next}, .certified qc ∈ l.done → qc.view.next? = some next → fit next qc.subject

theorem Fits.back (h : Fits fit l') (hstep : Step ctx known l l') : Fits fit l :=
  ⟨fun x hx => h.heard x (hstep.heard_subset hx),
    fun hqc hnext => h.certified (hstep.done_subset hqc) hnext⟩

/-- The property holds of the high certificate and of all certificates that the core sent. -/
structure Fitted (fit : View → Subject → Prop) (l : Life Chain σ) : Prop where
  high : fit l.state.view l.memory.high.subject
  letters : ∀ x ∈ l.letters, x.kind = .newView ∨ x.kind = .generic →
    fit x.body.view x.body.justify.subject

theorem Lasting.named {view : View} {qc : Certificate} (h : Lasting ctx fit)
    (hfit : fit view qc.subject) (leaf : Digest) : named qc leaf = qc := by
  have hnode : qc.nodeId.isZero = false := decide_eq_false (h.nonzero hfit)
  simp [Chained.named, hnode]

theorem Fitted.step_high (h : Fitted fit l) (hlasting : Lasting ctx fit) (hfits : Fits fit l')
    (hlogged : Logged l) (hstep : Step ctx known l l') :
    fit l'.state.view l'.memory.high.subject := by
  have hheld := hlasting.mono hstep.le_view h.high
  cases hstep with
  | accept => exact hheld
  | announce _ _ _ _ _ _ hmid =>
    subst hmid
    exact hheld
  | adopt _ hview htaken hadopted =>
    rcases hadopted.high with hsame | hraised
    · exact hsame ▸ hheld
    · rw [hraised, hadopted.steady.view, ← hview]
      cases htaken with
      | own hx hkind => exact h.letters _ (Life.mem_letters.2 (.inr hx)) (.inr hkind)
      | heard hm => exact hfits.heard _ (hadopted.heard ▸ hm) (.inr rfl)
  | move hmove =>
    cases hmove with
    | gather hgather =>
      cases hgather with
      | @mk best qc high hleads hproposal hbest htaken hhigh =>
        obtain ⟨hmem, hview⟩ := MessageLog.mem_forView.1 (best_mem hbest)
        have hfit := hfits.heard _ (hlogged.newViews.heard best hmem) (.inl rfl)
        have hqc : fit l.state.view qc.subject := by
          rw [subject_taken htaken, ← hview]
          exact hfit
        rw [hlasting.named hqc] at hhigh
        rcases raise_cases l.memory.high qc with hsame | hsame
        · exact hhigh.trans hsame ▸ hheld
        · exact hhigh.trans hsame ▸ hqc
    | certify hcertify =>
      cases hcertify with
      | @mk view next nodeId payload votes own qc high _ hnext _ _ _ _ hqc hhigh =>
        have hview : qc.view = view := by simp [hqc, Certificate.view]
        have hfit : fit next qc.subject := hfits.certified (by simp) (hview ▸ hnext)
        rcases raise_cases l.memory.high qc with hsame | hsame
        · exact hhigh.trans hsame ▸ hheld
        · exact hhigh.trans hsame ▸ hfit
    | _ => exact hheld

theorem Reached.fitted (h : Reached ctx known l) (hlasting : Lasting ctx fit)
    (hfits : Fits fit l) : Fitted fit l := by
  induction h with
  | born app => exact ⟨hlasting.initial, by simp [Life.initial, Life.letters]⟩
  | @step l l' hreached hstep ih =>
    have hold := ih (hfits.back hstep)
    refine ⟨hold.step_high hlasting hfits hreached.logged hstep, fun x hx hkind => ?_⟩
    obtain ⟨e, he, hletter⟩ := List.mem_filterMap.1 hx
    obtain ⟨es, hdone, hasked⟩ := hstep.asked
    rw [hdone, List.mem_append] at he
    rcases he with he | he
    · exact hold.letters x (List.mem_filterMap.2 ⟨e, he, hletter⟩) hkind
    · cases hasked e he with
      | resetTimer | wrote | certified => cases hletter
      | report hwrote =>
        obtain rfl := Option.some.inj hletter
        rw [hwrote.body_eq]
        exact hold.high
      | errand hdone =>
        obtain rfl := Option.some.inj hletter
        obtain ⟨node, hvoted⟩ := hreached.voted hdone
        simp [hvoted.wrote.kind_eq] at hkind
      | propose _ _ hwrote =>
        obtain rfl := Option.some.inj hletter
        rw [hwrote.body_eq]
        exact hold.high
      | adopted _ _ _ _ _ hconsequent => cases hconsequent <;> cases hletter

end Certificates

/-- A delivered payload is that of a final node. -/
theorem Reached.delivered (h : Reached ctx known l) {view : View} {payload : Payload}
    (hdone : .deliver view payload ∈ l.done) : ∃ top b, Taken ctx l top ∧
      Finality (Node ctx l) top b ∧ b.id ≠ (genesisNode ctx.scheme).id ∧ b.view = view ∧
      b.payload = payload := by
  refine h.forall_done (P := fun l e => ∀ view payload, e = .deliver view payload →
      ∃ top b, Taken ctx l top ∧ Finality (Node ctx l) top b ∧
        b.id ≠ (genesisNode ctx.scheme).id ∧ b.view = view ∧ b.payload = payload)
    (fun hstep hold view payload he => ?_)
    (fun {l l' e} hreached hstep hasked view payload he => ?_) _ hdone _ _ rfl
  · obtain ⟨top, b, htaken, ⟨⟨b1, b0, h1, h0, hlinks⟩, hb⟩, hrest⟩ := hold view payload he
    exact ⟨top, b, hstep.taken htaken, ⟨⟨b1, b0, hstep.node h1, hstep.node h0, hlinks⟩,
      hstep.node hb⟩, hrest⟩
  · subst he
    cases hasked with
    | @adopted node _ _ hview htaken _ _ hconsequent =>
      cases hconsequent with
      | deliver hfinal hroot =>
        have hnode : ∀ {x}, x = node ∨ x ∈ l.memory.tree.nodes → Node ctx l' x := by
          rintro x (rfl | hx)
          · exact hstep.node (.root (.taken htaken))
          · exact hstep.node (hreached.planted.nodes x hx)
        obtain ⟨⟨b1, b0, h1, h0, hlinks⟩, hb⟩ := hfinal
        exact ⟨node, _, hstep.taken htaken, ⟨⟨b1, b0, hnode h1, hnode h0, hlinks⟩, hnode hb⟩,
          hreached.planted.genesisId ▸ hroot, rfl, rfl⟩

theorem Opened.step {view : View} {high : Certificate}
    (h : Opened ctx l.heard l.done view high) (hstep : Step ctx known l l') :
    Opened ctx l'.heard l'.done view high := by
  cases h with
  | gathered hcollected hle => exact .gathered (hcollected.mono hstep.heard_subset) hle
  | certified hqc hnext hle => exact .certified (hstep.done_subset hqc) hnext hle

theorem Reached.opened (h : Reached ctx known l) {x : Letter} (hx : .broadcast x ∈ l.done) :
    Opened ctx l.heard l.done x.body.view x.body.justify := by
  refine h.forall_asked .broadcast
    (P := fun l x => Opened ctx l.heard l.done x.body.view x.body.justify)
    (fun hstep hold => hold.step hstep) (fun hreached hstep hasked => ?_) x hx
  cases hasked with
  | propose hopened _ hwrote =>
    rw [hwrote.body_eq]
    exact hopened.step hstep
  | adopted _ _ _ _ _ hconsequent => cases hconsequent

section Grounded

/-- The tree has the node that the proposal certifies, if there is a proposal. -/
def Grounded (p : State × Chain) : Prop :=
  ∀ b, p.1.proposal = some b → p.2.tree.contains b.justify.nodeId

instance (p : State × Chain) : Decidable (Grounded p) :=
  decidable_of_iff (p.1.proposal.all fun b => p.2.tree.contains b.justify.nodeId)
    (Option.all_eq_true _ _)

/-- The view of a certificate that is made or of a vote that is postponed. -/
def binding? : Effect → Option View
  | .certified qc => some qc.view
  | .postpone view (.send _ _) => some view
  | _ => none

/-- `bound` is at least the view of the certificate made, or of the one in the node that was voted
for, if it is for the parent. -/
def Honoured (ctx : Context σ) (l : Life Chain σ) (bound : View) : Effect → Prop
  | .certified qc => qc.view ≤ bound
  | .postpone view (.send receiver x) => ∃ node, Voted ctx l view receiver x node ∧
      (node.parentId = node.justify.nodeId → node.justify.view ≤ bound)
  | _ => True

theorem Honoured.step {bound bound' : View} {e : Effect} (h : Honoured ctx l bound e)
    (hstep : Step ctx known l l') (hbound : bound ≤ bound') : Honoured ctx l' bound' e := by
  match e with
  | .certified qc => exact UInt64.le_trans h hbound
  | .postpone view (.send receiver x) =>
    obtain ⟨node, hvoted, hle⟩ := h
    exact ⟨node, { hvoted with taken := hstep.taken hvoted.taken },
      fun hdirect => UInt64.le_trans (hle hdirect) hbound⟩
  | .postpone _ .nextRound | .send .. | .broadcast _ | .resetTimer | .wrote _ | .deliver .. => trivial

theorem Step.le_high (h : Step ctx known l l') : l.memory.high.view ≤ l'.memory.high.view := by
  cases h with
  | accept => exact UInt64.le_refl _
  | announce _ _ _ _ _ _ hmid => exact hmid ▸ UInt64.le_refl _
  | adopt _ _ _ hadopted => exact hadopted.le_high
  | move hmove =>
    cases hmove with
    | gather hgather =>
      cases hgather with
      | mk _ _ _ _ hhigh => exact hhigh ▸ held_le_raise _ _
    | certify hcertify =>
      cases hcertify with
      | mk _ _ _ _ _ _ _ hhigh => exact hhigh ▸ held_le_raise _ _
    | _ => exact UInt64.le_refl _

/-- If the core is always grounded, the view of its high certificate honours all its effects. -/
theorem Reached.honoured (h : Reached ctx Grounded l) :
    ∀ e ∈ l.done, Honoured ctx l l.memory.high.view e := by
  refine h.forall_done (P := fun l e => Honoured ctx l l.memory.high.view e)
    (fun hstep hold => hold.step hstep hstep.le_high) (fun hreached hstep hasked => ?_)
  cases hasked with
  | resetTimer | wrote | report | errand | propose => trivial
  | certified _ _ _ _ _ _ _ _ hhigh => exact hhigh ▸ offered_le_raise _ _
  | adopted hproposal hview htaken hadopted hknown hconsequent =>
    cases hconsequent with
    | wrote | deliver => trivial
    | vote _ hother hwrote hraised =>
      refine ⟨_, ⟨hstep.taken htaken, hview, hwrote, hother⟩, fun hdirect => hraised hdirect ?_⟩
      exact hknown _ (hadopted.steady.proposal.trans hproposal)

theorem Asked.le_binding {e : Effect} {view : View} (h : Asked ctx known l l' e)
    (hbinding : binding? e = some view) : l.state.view ≤ view := by
  cases h with
  | certified hview =>
    obtain rfl := Option.some.inj hbinding
    exact hview
  | adopted _ _ _ _ _ hconsequent =>
    cases hconsequent with
    | vote =>
      obtain rfl := Option.some.inj hbinding
      exact UInt64.le_refl _
    | wrote | deliver => cases hbinding
  | resetTimer | wrote | report | errand | propose => cases hbinding

/-- The certificate in `x` honours all effects of the core in earlier views. -/
structure Reported (ctx : Context σ) (l : Life Chain σ) (x : Letter) : Prop where
  le_view : x.body.view ≤ l.state.view
  honoured : ∀ e ∈ l.done, ∀ view, binding? e = some view → view < x.body.view →
    Honoured ctx l x.body.justify.view e

theorem Reported.step {x : Letter} (h : Reported ctx l x) (hstep : Step ctx known l l') :
    Reported ctx l' x := by
  refine ⟨UInt64.le_trans h.le_view hstep.le_view, fun e he view hbinding hlt => ?_⟩
  obtain ⟨es, hdone, hasked⟩ := hstep.asked
  rw [hdone, List.mem_append] at he
  rcases he with he | he
  · exact (h.honoured e he view hbinding hlt).step hstep (UInt64.le_refl _)
  · have hle := UInt64.le_trans h.le_view ((hasked e he).le_binding hbinding)
    exact absurd hlt (UInt64.not_lt.2 hle)

theorem Reached.reports (h : Reached ctx Grounded l) {x : Letter} (hview : x.body.view = l.state.view)
    (hjustify : x.body.justify = l.memory.high) : Reported ctx l x where
  le_view := hview ▸ UInt64.le_refl _
  honoured e he _ _ _ := hjustify ▸ h.honoured e he

theorem Reached.reported (h : Reached ctx Grounded l) {x : Letter} (hx : x ∈ l.letters)
    (hkind : x.kind = .newView ∨ x.kind = .generic) : Reported ctx l x := by
  obtain ⟨e, he, hletter⟩ := List.mem_filterMap.1 hx
  refine h.forall_done (P := fun l e => ∀ x, e.letter? = some x →
      x.kind = .newView ∨ x.kind = .generic → Reported ctx l x)
    (fun hstep hold x hletter hkind => (hold x hletter hkind).step hstep)
    (fun {l l' e} hreached hstep hasked x hletter hkind => ?_) _ he _ hletter hkind
  cases hasked with
  | resetTimer | wrote | certified => cases hletter
  | report hwrote =>
    obtain rfl := Option.some.inj hletter
    exact (hreached.reports (by rw [hwrote.body_eq]; rfl) (by rw [hwrote.body_eq]; rfl)).step hstep
  | errand hdone =>
    obtain rfl := Option.some.inj hletter
    obtain ⟨node, hvoted⟩ := hreached.voted hdone
    simp [hvoted.wrote.kind_eq] at hkind
  | propose _ _ hwrote =>
    obtain rfl := Option.some.inj hletter
    exact (hreached.reports (by rw [hwrote.body_eq]; rfl) (by rw [hwrote.body_eq]; rfl)).step hstep
  | adopted _ _ _ _ _ hconsequent => cases hconsequent <;> cases hletter

/-- A proposal is on top of the node that it certifies or of dummies above that node, unless the
identity that it certifies is that of a dummy or its own. -/
inductive Seated (ctx : Context σ) (l : Life Chain σ) (b : Body) : Prop
  | certified {start tip : Body} :
      Node ctx l start → start.id = b.justify.nodeId → Tip (Node ctx l) start b.view tip →
      b.parentId = tip.id → Seated ctx l b
  | dummy {d : Body} :
      Node ctx l d → d.id = b.justify.nodeId → d.justify = Certificate.genesis → Seated ctx l b
  | itself : b.id = b.justify.nodeId → Seated ctx l b

theorem Seated.step {b : Body} (h : Seated ctx l b) (hstep : Step ctx known l l') :
    Seated ctx l' b := by
  cases h with
  | certified hstart hid htip hparent =>
    exact .certified (hstep.node hstart) hid (htip.mono fun _ => hstep.node) hparent
  | dummy hd hid hjustify => exact .dummy (hstep.node hd) hid hjustify
  | itself hid => exact .itself hid

theorem Reached.seated (h : Reached ctx Grounded l) {x : Letter} (hx : .broadcast x ∈ l.done) :
    Seated ctx l x.body := by
  refine h.forall_asked .broadcast (P := fun l x => Seated ctx l x.body)
    (fun hstep hold => hold.step hstep) (fun {l l' x} hreached hstep hasked => ?_) x hx
  cases hasked with
  | adopted _ _ _ _ _ hconsequent => cases hconsequent
  | @propose _ tree parentId data l'' _ hbackfill hwrote hproposal htree hadopted hknown =>
    rw [hwrote.body_eq]
    have hnodes := hreached.planted.nodes
    obtain ⟨-, hmem, htip⟩ := NodeTree.backfill_spec hnodes hbackfill
    have hcontains := hknown _ (hadopted.steady.proposal.trans hproposal)
    obtain ⟨certified, hget⟩ := NodeTree.exists_of_contains hcontains
    obtain ⟨hcertified, hid⟩ := NodeTree.mem_of_get? hget
    -- The certified node is the proposal itself, one stored before, or part of the bridge.
    rcases hadopted.nodes certified hcertified with rfl | hcertified
    · exact .itself hid
    · rcases hmem certified (htree ▸ hcertified) with hstored | ⟨hgrown, hjustify⟩
      · have hhigh : l.memory.tree.contains l.memory.high.nodeId := by
          have hid : certified.id = l.memory.high.nodeId := hid
          exact hid ▸ NodeTree.contains_of_mem hstored
        obtain ⟨start, hstart⟩ := NodeTree.exists_of_contains hhigh
        obtain ⟨hstartMem, hstartId⟩ := NodeTree.mem_of_get? hstart
        have hseat : seat l.memory = l.memory.high.nodeId := if_pos hhigh
        obtain ⟨tip, hparent, htip⟩ := htip start (hseat ▸ hstart)
        exact .certified (hstep.node (hnodes start hstartMem)) hstartId
          (htip.mono fun _ => hstep.node) hparent.symm
      · exact .dummy (hstep.node hgrown) hid hjustify

end Grounded

end Concord.Core.Chained
