import Concord.Proofs.Basic.Moves

/-!
The effects of a core of the five-phase protocol, with the state and messages that each of them
depends on. Most results assume that no other member signs in the core's name.
-/

namespace Concord.Core.Basic

open Handler Relation

variable {σ : Type} {ctx : Context σ} {l l' : Life Unit σ}

/-- The effects of a move, with what is known when each of them is made. -/
inductive Asked (ctx : Context σ) (l l' : Life Unit σ) : Effect → Prop
  | resetTimer : Asked ctx l l' .resetTimer
  | wrote {kind : MessageKind} {body : Body} {letter : Letter} :
      ctx.Wrote kind body letter → Asked ctx l l' (.wrote letter)
  | report {letter : Letter} :
      l.state.phase = .newView → ctx.Wrote .newView (newViewBody l.state) letter →
      (ctx.leader l.state.view).key ≠ ctx.me →
      Asked ctx l l' (.send (ctx.leader l.state.view) letter)
  | propose {best : SignedBody} {high : Certificate} {data : Bytes} {body : Body}
      {letter : Letter} :
      ctx.leads l.state.view → l.state.phase = .newView → best? ctx l.state = some best →
      taken ctx l.state best = .ok high →
      body = Body.plain l.state.view .prepare ⟨high.payload.hash ctx.scheme, data⟩ high →
      ctx.Wrote .prepare body letter →
      Asked ctx l l' (.broadcast letter)
  | votePrepare {m : SignedBody} {letter : Letter} :
      ⟨.prepare, m⟩ ∈ l.heard → l.state.view ≤ m.view →
      (m.view = l.state.view → l.state.phase = .newView) →
      ctx.checkProposal l.state l.app m (extendsLock ctx m) = .ok () →
      ctx.Wrote .vote (Body.plain m.view .prepare m.body.payload Certificate.genesis) letter →
      (ctx.leader m.view).key ≠ ctx.me →
      Asked ctx l l' (.send (ctx.leader m.view) letter)
  | votePreCommit {m : SignedBody} {letter : Letter} :
      ⟨.preCommit, m⟩ ∈ l.heard → m.view = l.state.view →
      checkCertified ctx l.state .preCommit m = .ok () →
      ctx.Wrote .vote
        (Body.plain l.state.view .preCommit m.justify.payload Certificate.genesis) letter →
      (ctx.leader l.state.view).key ≠ ctx.me →
      Asked ctx l l' (.send (ctx.leader l.state.view) letter)
  | voteCommit {m : SignedBody} {letter : Letter} :
      ⟨.commit, m⟩ ∈ l.heard → m.view = l.state.view →
      checkCertified ctx l.state .commit m = .ok () →
      ctx.Wrote .vote
        (Body.plain l.state.view .commit m.justify.payload Certificate.genesis) letter →
      (ctx.leader l.state.view).key ≠ ctx.me →
      Asked ctx l l' (.send (ctx.leader l.state.view) letter)
  | certified {proposal : Body} {qc : Certificate} :
      ctx.leads l.state.view → l.state.proposal = some proposal →
      certificate? ctx l.state proposal.payload = .ok (some qc) →
      Asked ctx l l' (.certified qc)
  | announce {proposal : Body} {qc : Certificate} {kind : MessageKind} {phase : Phase}
      {letter : Letter} :
      ctx.leads l.state.view → l.state.proposal = some proposal →
      certificate? ctx l.state proposal.payload = .ok (some qc) →
      (kind, phase, qc.phase) ∈ [(.preCommit, .preCommit, .prepare),
        (.commit, .commit, .preCommit), (.decide, .decide, .commit)] →
      .certified qc ∈ l'.done →
      ctx.Wrote kind (Body.plain l.state.view phase proposal.payload qc) letter →
      Asked ctx l l' (.broadcast letter)
  | deliverOwn {proposal : Body} {qc : Certificate} :
      ctx.leads l.state.view → l.state.proposal = some proposal →
      certificate? ctx l.state proposal.payload = .ok (some qc) → l.state.phase = .commit →
      Asked ctx l l' (.deliver l.state.view proposal.payload)
  | deliverHeard {m : SignedBody} :
      ⟨.decide, m⟩ ∈ l.heard → m.view = l.state.view →
      checkCertified ctx l.state .decide m = .ok () →
      Asked ctx l l' (.deliver l.state.view m.justify.payload)
  | postpone {m : SignedBody} :
      ⟨.decide, m⟩ ∈ l.heard → m.view = l.state.view →
      Asked ctx l l' (.postpone l.state.view .nextRound)

theorem certificate_phase {s : State} {payload : Payload} {qc : Certificate}
    (h : certificate? ctx s payload = .ok (some qc)) : qc.phase = s.phase := by
  rw [Certificate.phase, subject_of_certificate h]

theorem certificate_view {s : State} {payload : Payload} {qc : Certificate}
    (h : certificate? ctx s payload = .ok (some qc)) : qc.view = s.view := by
  rw [Certificate.view, subject_of_certificate h]

theorem certificate_payload {s : State} {payload : Payload} {qc : Certificate}
    (h : certificate? ctx s payload = .ok (some qc)) : qc.payload = payload := by
  rw [Certificate.payload, subject_of_certificate h]

theorem asked_posted {receiver : Member} {kind : MessageKind} {body : Body}
    (hsend : ∀ letter, ctx.Wrote kind body letter → receiver.key ≠ ctx.me →
      Asked ctx l l' (.send receiver letter)) :
    ∀ e ∈ ctx.posted receiver kind body, Asked ctx l l' e :=
  Context.forall_posted (fun _ hwrote => .wrote hwrote) hsend

theorem asked_voting {view : View} {phase : Phase} {payload : Payload}
    (hsend : ∀ letter,
      ctx.Wrote .vote (Body.plain view phase payload Certificate.genesis) letter →
      (ctx.leader view).key ≠ ctx.me → Asked ctx l l' (.send (ctx.leader view) letter)) :
    ∀ e ∈ .resetTimer :: ballot ctx view phase payload, Asked ctx l l' e :=
  List.forall_mem_cons.2 ⟨.resetTimer, asked_posted hsend⟩

theorem asked_certifying {proposal : Body} {qc : Certificate} {es : List Effect}
    (hleads : ctx.leads l.state.view) (hproposal : l.state.proposal = some proposal)
    (hqc : certificate? ctx l.state proposal.payload = .ok (some qc))
    (hes : ∀ e ∈ es, Asked ctx l l' e) :
    ∀ e ∈ .certified qc :: .resetTimer :: es, Asked ctx l l' e := by
  simp only [List.forall_mem_cons]
  exact ⟨.certified hleads hproposal hqc, .resetTimer, hes⟩

/-- Each effect that a move adds is one of `Asked`. -/
theorem Move.asked (h : Move ctx l l') :
    ∃ es, l'.done = l.done ++ es ∧ ∀ e ∈ es, Asked ctx l l' e := by
  cases h with
  | hear | note | retouch | stop => exact ⟨[], by simp, by simp⟩
  | begin | enter => exact ⟨[.resetTimer], rfl, by simpa using .resetTimer⟩
  | keep | squander | log => exact ⟨[], by simp, by simp⟩
  | report hleads hphase =>
    refine ⟨_, rfl, asked_posted fun letter hwrote hother => ?_⟩
    exact .report hphase hwrote hother
  | propose hleads hphase hbest htaken hproduce hbody hwrote =>
    refine ⟨_, rfl, ?_⟩
    simp only [List.forall_mem_cons]
    exact ⟨.wrote hwrote, .resetTimer, .propose hleads hphase hbest htaken hbody hwrote,
      List.forall_mem_nil _⟩
  | accept hm hview hphase hcheck =>
    refine ⟨_, rfl, asked_voting fun letter hwrote hother => ?_⟩
    exact .votePrepare hm hview hphase hcheck hwrote hother
  | followPreCommit hm hview hrank hcheck =>
    refine ⟨_, rfl, asked_voting fun letter hwrote hother => ?_⟩
    exact .votePreCommit hm hview hcheck hwrote hother
  | followCommit hm hview hrank hcheck =>
    refine ⟨_, rfl, asked_voting fun letter hwrote hother => ?_⟩
    exact .voteCommit hm hview hcheck hwrote hother
  | followDecide hm hview hrank hcheck =>
    refine ⟨_, rfl, ?_⟩
    simp only [List.forall_mem_cons]
    exact ⟨.resetTimer, .deliverHeard hm hview hcheck, .postpone hm hview, List.forall_mem_nil _⟩
  | certifyPrepare hleads hproposal hqc hphase | certifyPreCommit hleads hproposal hqc hphase =>
    refine ⟨_, rfl, asked_certifying hleads hproposal hqc ?_⟩
    refine Context.forall_announced (fun _ hwrote => .wrote hwrote) fun letter hwrote => ?_
    exact .announce hleads hproposal hqc (by simp [certificate_phase hqc, hphase]) (by simp) hwrote
  | certifyCommit hleads hproposal hqc hphase hwrote =>
    refine ⟨_, rfl, asked_certifying hleads hproposal hqc ?_⟩
    simp only [List.forall_mem_cons]
    refine ⟨.wrote hwrote, ?_, .deliverOwn hleads hproposal hqc hphase, List.forall_mem_nil _⟩
    exact .announce hleads hproposal hqc (by simp [certificate_phase hqc, hphase]) (by simp) hwrote
  | certifyUnsigned hleads hproposal hqc | certifyIdle hleads hproposal hqc =>
    exact ⟨_, rfl, asked_certifying hleads hproposal hqc (List.forall_mem_nil _)⟩

theorem Move.heard_subset (h : Move ctx l l') : l.heard ⊆ l'.heard := by
  cases h with
  | hear => exact List.subset_append_left _ _
  | _ => exact List.Subset.refl _

theorem Move.done_subset (h : Move ctx l l') : l.done ⊆ l'.done := by
  obtain ⟨es, hdone, -⟩ := h.asked
  rw [hdone]
  exact List.subset_append_left _ _

/-- A property of effects that moves preserve, and that holds of each effect when it is made, holds
of all effects of a core. -/
theorem Reached.forall_done {P : Life Unit σ → Effect → Prop} (h : Reached ctx l)
    (old : ∀ {l l' e}, Move ctx l l' → P l e → P l' e)
    (new : ∀ {l l' e}, Reached ctx l → Move ctx l l' → Asked ctx l l' e → P l' e) :
    ∀ e ∈ l.done, P l e := by
  induction h with
  | born app => simp [Life.initial]
  | move hreached hmove ih =>
    obtain ⟨es, hdone, hasked⟩ := hmove.asked
    intro e he
    rw [hdone, List.mem_append] at he
    rcases he with he | he
    · exact old hmove (ih e he)
    · exact new hreached hmove (hasked e he)

theorem Reached.forall_asked {α : Type} (make : α → Effect) {P : Life Unit σ → α → Prop}
    (h : Reached ctx l) (old : ∀ {l l' a}, Move ctx l l' → P l a → P l' a)
    (new : ∀ {l l' a}, Reached ctx l → Move ctx l l' → Asked ctx l l' (make a) → P l' a) :
    ∀ a, make a ∈ l.done → P l a := by
  intro a ha
  exact h.forall_done (P := fun l e => ∀ a, e = make a → P l a)
    (fun hmove hold a he => old hmove (hold a he))
    (fun hreached hmove hasked a he => new hreached hmove (he ▸ hasked)) _ ha a rfl

theorem Reached.send (h : Reached ctx l) {receiver : Member} {x : Letter}
    (hx : .send receiver x ∈ l.done) : x.signed.signer = ctx.me ∧ receiver.key ≠ ctx.me ∧
      (x.kind = .newView ∨ x.kind = .vote) := by
  refine h.forall_done (P := fun _ e => ∀ receiver x, e = .send receiver x →
    x.signed.signer = ctx.me ∧ receiver.key ≠ ctx.me ∧ (x.kind = .newView ∨ x.kind = .vote))
    (fun _ hold => hold) (fun _ _ hasked receiver x he => ?_) _ hx _ _ rfl
  subst he
  cases hasked with
  | report _ hwrote hother => exact ⟨hwrote.signer_eq, hother, .inl hwrote.kind_eq⟩
  | votePrepare _ _ _ _ hwrote hother => exact ⟨hwrote.signer_eq, hother, .inr hwrote.kind_eq⟩
  | votePreCommit _ _ _ hwrote hother => exact ⟨hwrote.signer_eq, hother, .inr hwrote.kind_eq⟩
  | voteCommit _ _ _ hwrote hother => exact ⟨hwrote.signer_eq, hother, .inr hwrote.kind_eq⟩

theorem Reached.broadcast (h : Reached ctx l) {x : Letter} (hx : .broadcast x ∈ l.done) :
    x.signed.signer = ctx.me ∧ x.kind.isProposal := by
  refine h.forall_asked .broadcast (P := fun _ x => x.signed.signer = ctx.me ∧ x.kind.isProposal)
    (fun _ hold => hold) (fun _ _ hasked => ?_) x hx
  cases hasked with
  | propose _ _ _ _ _ hwrote => exact ⟨hwrote.signer_eq, by rw [hwrote.kind_eq]; rfl⟩
  | announce _ _ _ hphase _ hwrote =>
    refine ⟨hwrote.signer_eq, ?_⟩
    simp only [List.mem_cons, Prod.mk.injEq, List.not_mem_nil, or_false] at hphase
    rw [hwrote.kind_eq]
    rcases hphase with ⟨rfl, -⟩ | ⟨rfl, -⟩ | ⟨rfl, -⟩ <;> rfl

theorem Reached.prepare (h : Reached ctx l) {b : Body} (hb : b ∈ l.proposals) :
    ∃ x, .broadcast x ∈ l.done ∧ x.kind = .prepare ∧ x.body = b := by
  obtain ⟨x, hx, hkind, hbody⟩ := Life.mem_proposals.1 hb
  refine ⟨x, hx, hkind.resolve_right ?_, hbody⟩
  refine h.forall_asked .broadcast (P := fun _ x => x.kind ≠ .generic)
    (fun _ hold => hold) (fun _ _ hasked => ?_) x hx
  cases hasked with
  | propose _ _ _ _ _ hwrote => simp [hwrote.kind_eq]
  | announce _ _ _ hphase _ hwrote =>
    rw [hwrote.kind_eq]
    rintro rfl
    simp at hphase

theorem Move.foreign (hmove : Move ctx l l') (h : Foreign ctx l') : Foreign ctx l :=
  fun x hx => h x (hmove.heard_subset hx)

theorem Reached.proposal (h : Reached ctx l) (hforeign : Foreign ctx l)
    (hleads : ctx.leads l.state.view) {p : Body} (hp : l.state.proposal = some p) :
    p ∈ l.proposals ∧ p.view = l.state.view := by
  induction h with
  | born app => cases hp
  | @move l l' hreached hmove ih =>
    have hold := ih (hmove.foreign hforeign)
    have hsub : l.proposals ⊆ l'.proposals := by
      obtain ⟨es, hdone, -⟩ := hmove.asked
      simp [Life.proposals, hdone]
    have hkeep : l'.state.view = l.state.view → l'.state.proposal = l.state.proposal →
        p ∈ l'.proposals ∧ p.view = l'.state.view := fun hview hproposal => by
      obtain ⟨hmem, heq⟩ := hold (hview ▸ hleads) (hproposal ▸ hp)
      exact ⟨hsub hmem, heq.trans hview.symm⟩
    cases hmove with
    | begin | enter => cases hp
    | propose _ _ _ _ _ hbody hwrote =>
      obtain rfl := Option.some.inj hp
      refine ⟨?_, by rw [hbody]; rfl⟩
      refine Life.mem_proposals.2 ⟨_, ?_, .inl hwrote.kind_eq, hwrote.body_eq⟩
      simp
    | accept hm hview _ hcheck =>
      -- The leader would have had to hear of a proposal in its own name.
      have hself := Context.leader_of_checkProposal hcheck
      simp only [Life.after_state, State.jump_view hview, Context.leads, decide_eq_true_eq] at hleads
      exact absurd (hself ▸ hleads) (hforeign _ hm)
    | _ => exact hkeep (by simp) (by simp)

/-- The proposals are orderly, and a core that proposed in its view has left the phase `newView`. -/
structure Ordered (ctx : Context σ) (l : Life Unit σ) : Prop where
  orderly : l.Orderly ctx
  left : ∀ b ∈ l.proposals, b.view = l.state.view → l.state.phase ≠ .newView

theorem Move.ascends (h : Move ctx l l') : l.state.view < l'.state.view ∨
    l.state.view = l'.state.view ∧ (l.state.phase ≠ .newView → l'.state.phase ≠ .newView) := by
  cases h with
  | enter hnext => exact .inl (View.lt_next hnext)
  | accept hm hview =>
    rcases UInt64.lt_or_eq_of_le hview with hlt | heq
    · exact .inl (by simpa [State.jump_view hview] using hlt)
    · exact .inr (by simp [State.jump_view hview, heq])
  | propose | followPreCommit | followCommit | followDecide => exact .inr (by simp)
  | certifyPrepare | certifyPreCommit | certifyCommit | certifyUnsigned => exact .inr (by simp)
  | begin => exact .inr (by simp [State.resetRound])
  | _ => exact .inr (by simp)

theorem Move.proposals (h : Move ctx l l') : l'.proposals = l.proposals ∨
    ∃ best high body, l'.proposals = l.proposals ++ [body] ∧ ctx.leads l.state.view ∧
      l.state.phase = .newView ∧ l'.state.view = l.state.view ∧ l'.state.phase = .prepare ∧
      best? ctx l.state = some best ∧ taken ctx l.state best = .ok high ∧
      body.view = l.state.view ∧ body.justify = high ∧
      body.payload.parent = high.payload.hash ctx.scheme := by
  cases h with
  | hear | note | retouch | stop => exact .inl rfl
  | @propose best high data app letter body hleads hphase hbest htaken hproduce hbody hwrote =>
    refine .inr ⟨best, high, body, ?_, hleads, hphase, rfl, rfl, hbest, htaken, ?_⟩
    · simp [Life.proposals_after, List.filterMap_cons, Effect.proposal?, hwrote.kind_eq,
        hwrote.body_eq]
    · rw [hbody]
      exact ⟨rfl, rfl, rfl⟩
  | certifyCommit _ _ _ _ hwrote =>
    exact .inl (by simp [Life.proposals_after, List.filterMap_cons, Effect.proposal?,
      hwrote.kind_eq])
  | _ =>
    refine .inl ?_
    simp only [Life.proposals_after, List.filterMap_cons, List.filterMap_nil, List.append_nil,
      Effect.proposal?_resetTimer, Effect.proposal?_certified, Effect.proposal?_deliver,
      Effect.proposal?_postpone, ballot, proposals_posted, proposals_announced, ne_eq,
      reduceCtorEq, not_false_eq_true, and_self, Life.turn_effects]

theorem Reached.ordered (h : Reached ctx l) : Ordered ctx l := by
  induction h with
  | born app => exact ⟨⟨List.Pairwise.nil, nofun, nofun⟩, nofun⟩
  | @move l l' hreached hmove ih =>
    obtain ⟨horderly, hleft⟩ := ih
    rcases hmove.proposals with hsame | ⟨best, high, body, hmore, hlead, hphase, hview, hphase',
      -, -, hbody, -⟩
    · refine ⟨horderly.same hsame hmove.le_view, fun b hb heq => ?_⟩
      have hold := horderly.le_view b (hsame ▸ hb)
      rcases hmove.ascends with hlt | ⟨hsameView, hphase⟩
      · exact absurd (UInt64.lt_of_le_of_lt hold hlt) (heq ▸ UInt64.lt_irrefl _)
      · exact hphase (hleft b (hsame ▸ hb) (heq.trans hsameView.symm))
    · -- All earlier proposals are of earlier views, for this one is still in its fresh phase.
      have hearlier : ∀ b ∈ l.proposals, b.view < l.state.view := fun b hb => by
        refine UInt64.lt_of_le_of_ne (horderly.le_view b hb) fun heq => hleft b hb heq hphase
      exact ⟨horderly.append hmore hlead hbody hview hearlier, fun b hb _ => by simp [hphase']⟩

structure Logged (l : Life Unit σ) : Prop where
  newViews : l.state.newViews.Holds .newView l.heard
  votes : l.state.votes.Holds .vote l.heard

theorem Reached.logged (h : Reached ctx l) : Logged l := by
  induction h with
  | born app => exact ⟨MessageLog.holds_empty, MessageLog.holds_empty⟩
  | @move l l' hreached hmove ih =>
    obtain ⟨hnewViews, hvotes⟩ := ih
    cases hmove with
    | hear => exact ⟨hnewViews.mono (by simp), hvotes.mono (by simp)⟩
    | begin | enter => exact ⟨hnewViews.retainFrom _, hvotes.retainFrom _⟩
    | keep hm => exact ⟨hnewViews.insert hm, hvotes⟩
    | squander | propose => exact ⟨hnewViews.removeView _, hvotes⟩
    | accept =>
      unfold State.jump
      split
      · exact ⟨hnewViews.retainFrom _, hvotes.retainFrom _⟩
      · exact ⟨hnewViews, hvotes⟩
    | log hm => exact ⟨hnewViews, hvotes.insert hm⟩
    | followCommit => exact ⟨by simpa using hnewViews, by simpa using hvotes⟩
    | certifyPreCommit =>
      exact ⟨by simpa using hnewViews, by simpa using hvotes.removeView _⟩
    | certifyPrepare | certifyCommit | certifyUnsigned | certifyIdle =>
      exact ⟨hnewViews, hvotes.removeView _⟩
    | _ => exact ⟨hnewViews, hvotes⟩

theorem Move.proposals_subset (h : Move ctx l l') : l.proposals ⊆ l'.proposals := by
  obtain ⟨es, hdone, -⟩ := h.asked
  simp [Life.proposals, hdone]

/-- A certificate that a core made is for the core's own proposal of that view. -/
theorem Reached.certified (h : Reached ctx l) (hforeign : Foreign ctx l) {qc : Certificate}
    (hqc : .certified qc ∈ l.done) : ∃ b ∈ l.proposals, b.view = qc.view ∧ b.payload = qc.payload := by
  refine h.forall_asked .certified (P := fun l qc => Foreign ctx l →
      ∃ b ∈ l.proposals, b.view = qc.view ∧ b.payload = qc.payload)
    (fun hmove hold hforeign => ?_) (fun hreached hmove hasked hforeign => ?_) qc hqc hforeign
  · obtain ⟨b, hb, hbody⟩ := hold (hmove.foreign hforeign)
    exact ⟨b, hmove.proposals_subset hb, hbody⟩
  · cases hasked with
    | certified hleads hproposal hcertificate =>
      obtain ⟨hmem, hview⟩ := hreached.proposal (hmove.foreign hforeign) hleads hproposal
      refine ⟨_, hmove.proposals_subset hmem, ?_⟩
      rw [certificate_view hcertificate, certificate_payload hcertificate]
      exact ⟨hview, rfl⟩

/-- A quorum of votes that were heard for the phase, view and payload of `qc`. -/
structure Votes (ctx : Context σ) (l : Life Unit σ) (qc : Certificate) (votes : List SignedBody) :
    Prop where
  collected : Collected ctx l.heard .vote qc.view votes
  phase : ∀ m ∈ votes, m.phase = qc.phase
  payload : ∀ m ∈ votes, m.body.payload = qc.payload

theorem quorum_of_certificate {s : State} {payload : Payload} {qc : Certificate}
    (h : certificate? ctx s payload = .ok (some qc)) : ctx.committee.isQuorum
      (s.votes.matching s.view s.phase fun m => m.body.payload = payload).length := by
  unfold certificate? at h
  simp only [List.length_map] at h
  split at h
  · cases h
  · next hquorum => simpa using hquorum

theorem collected_of_certificate {s : State} {payload : Payload} {qc : Certificate}
    {heard : List Letter} (hlog : s.votes.Holds .vote heard)
    (h : certificate? ctx s payload = .ok (some qc)) : Collected ctx heard .vote s.view
      (s.votes.matching s.view s.phase fun m => m.body.payload = payload) where
  heard m hm := hlog.heard m (MessageLog.mem_matching.1 hm).1
  view _ hm := (MessageLog.mem_matching.1 hm).2.1
  nodup := hlog.indexed.nodup.sublist (List.filter_sublist.map _)
  quorum := quorum_of_certificate h

theorem votes_of_certificate {payload : Payload} {qc : Certificate}
    (hlog : l.state.votes.Holds .vote l.heard)
    (h : certificate? ctx l.state payload = .ok (some qc)) : Votes ctx l qc
      (l.state.votes.matching l.state.view l.state.phase fun m => m.body.payload = payload) := by
  refine ⟨certificate_view h ▸ collected_of_certificate hlog h, fun m hm => ?_, fun m hm => ?_⟩
  · rw [certificate_phase h]
    exact (MessageLog.mem_matching.1 hm).2.2.1
  · rw [certificate_payload h]
    simpa using (MessageLog.mem_matching.1 hm).2.2.2

theorem Reached.votes (h : Reached ctx l) {qc : Certificate} (hqc : .certified qc ∈ l.done) :
    ∃ votes, Votes ctx l qc votes := by
  refine h.forall_asked .certified (P := fun l qc => ∃ votes, Votes ctx l qc votes)
    (fun hmove hold => ?_) (fun hreached hmove hasked => ?_) qc hqc
  · obtain ⟨votes, hvotes⟩ := hold
    exact ⟨votes, { hvotes with collected := hvotes.collected.mono hmove.heard_subset }⟩
  · cases hasked with
    | certified _ _ hcertificate =>
      have hvotes := votes_of_certificate hreached.logged.votes hcertificate
      exact ⟨_, { hvotes with collected := hvotes.collected.mono hmove.heard_subset }⟩

theorem leader_of_checkCertified {s : State} {kind : MessageKind} {m : SignedBody}
    (h : checkCertified ctx s kind m = .ok ()) : (ctx.leader s.view).key = m.signer ∧
      m.justify.phase = certifiedPhase kind ∧ m.justify.view = s.view := by
  unfold checkCertified at h
  simp only at h
  split at h
  · cases h
  · next hleader =>
    split at h
    · cases h
    · next hcertificate =>
      simp only [Bool.or_eq_true, decide_eq_true_eq, not_or, Decidable.not_not, ne_eq]
        at hcertificate hleader
      exact ⟨hleader, hcertificate⟩

/-- A core gets the certificate that opens a phase from the leader, or it makes the certificate for
its own proposal. -/
inductive Gains (ctx : Context σ) (l l' : Life Unit σ) (kind : MessageKind) : Certificate → Prop
  | heard {m : SignedBody} :
      ⟨kind, m⟩ ∈ l.heard → m.view = l.state.view → checkCertified ctx l.state kind m = .ok () →
      Gains ctx l l' kind m.justify
  | made {proposal : Body} {qc : Certificate} :
      ctx.leads l.state.view → l.state.proposal = some proposal →
      certificate? ctx l.state proposal.payload = .ok (some qc) →
      l.state.phase = certifiedPhase kind → .certified qc ∈ l'.done → Gains ctx l l' kind qc

section Openings

variable {kind : MessageKind} {qc : Certificate}

theorem Gains.view (h : Gains ctx l l' kind qc) : qc.view = l.state.view := by
  cases h with
  | heard _ _ hcheck => exact (leader_of_checkCertified hcheck).2.2
  | made _ _ hqc => exact certificate_view hqc

theorem Gains.phase (h : Gains ctx l l' kind qc) : qc.phase = certifiedPhase kind := by
  cases h with
  | heard _ _ hcheck => exact (leader_of_checkCertified hcheck).2.1
  | made _ _ hqc hphase => exact (certificate_phase hqc).trans hphase

/-- The move opens the phase of `kind` with `qc`, and leaves the view and the proposal the same. -/
structure Opens (ctx : Context σ) (l l' : Life Unit σ) (kind : MessageKind) (qc : Certificate) :
    Prop where
  gains : Gains ctx l l' kind qc
  phase : ownPhase? kind = some l'.state.phase
  view : l'.state.view = l.state.view
  proposal : l'.state.proposal = l.state.proposal

theorem lock_cases (s : State) (qc : Certificate) :
    (s.lock qc).locked = s.locked ∨ (s.lock qc).locked = some qc := by
  unfold State.lock
  split
  · exact .inr rfl
  · exact .inl rfl

theorem Move.prepared_cases (h : Move ctx l l') : l'.state.prepared = l.state.prepared ∨
    ∃ qc, l'.state.prepared = some qc ∧ Opens ctx l l' .preCommit qc := by
  cases h with
  | followPreCommit hm hview _ hcheck => exact .inr ⟨_, rfl, .heard hm hview hcheck, rfl, rfl, rfl⟩
  | certifyPrepare hleads hproposal hqc hphase =>
    exact .inr ⟨_, rfl, .made hleads hproposal hqc hphase (by simp), rfl, rfl, rfl⟩
  | begin | enter => exact .inl rfl
  | _ => exact .inl (by simp)

theorem Move.locked_cases (h : Move ctx l l') : l'.state.locked = l.state.locked ∨
    ∃ qc, l'.state.locked = some qc ∧ Opens ctx l l' .commit qc := by
  cases h with
  | @followCommit m hm hview _ hcheck =>
    exact (lock_cases l.state m.justify).imp_right fun hlocked =>
      ⟨_, hlocked, .heard hm hview hcheck, rfl, by simp, by simp⟩
  | @certifyPreCommit _ qc hleads hproposal hqc hphase =>
    exact (lock_cases { l.state with votes := _ } qc).imp_right fun hlocked =>
      ⟨_, hlocked, .made hleads hproposal hqc hphase (by simp), rfl, by simp, by simp⟩
  | begin | enter => exact .inl rfl
  | _ => exact .inl (by simp)

end Openings

def before? : Phase → Option Phase
  | .preCommit => some .prepare
  | .commit => some .preCommit
  | _ => none

/-- The core made a certificate of `phase` in `view`. -/
def Certified (l : Life Unit σ) (phase : Phase) (view : View) : Prop :=
  ∃ qc, .certified qc ∈ l.done ∧ qc.phase = phase ∧ qc.view = view

theorem Certified.move {phase : Phase} {view : View} (h : Certified l phase view)
    (hmove : Move ctx l l') : Certified l' phase view := by
  obtain ⟨qc, hqc, hrest⟩ := h
  exact ⟨qc, hmove.done_subset hqc, hrest⟩

/-- A leader past the phase `prepare` of its view made the certificate of the phase before. -/
theorem Reached.staged (h : Reached ctx l) (hforeign : Foreign ctx l)
    (hleads : ctx.leads l.state.view) {phase : Phase} (hphase : before? l.state.phase = some phase) :
    Certified l phase l.state.view := by
  induction h with
  | born app => cases hphase
  | @move l l' hreached hmove ih =>
    have hkeep : l'.state.view = l.state.view → l'.state.phase = l.state.phase →
        Certified l' phase l'.state.view := fun hview hsame => by
      have hold := ih (hmove.foreign hforeign) (hview ▸ hleads) (hsame ▸ hphase)
      exact hview ▸ hold.move hmove
    -- A leader follows no certificate: it would be one in its own name.
    have hself : ∀ {kind m}, checkCertified ctx l.state kind m = .ok () →
        l'.state.view = l.state.view → m.signer = ctx.me := fun hcheck hview => by
      have hleader := (leader_of_checkCertified hcheck).1
      rw [hview, Context.leads, decide_eq_true_eq] at hleads
      exact hleader.symm.trans hleads
    cases hmove with
    | enter | propose | accept | followDecide => cases hphase
    | certifyCommit | certifyUnsigned => cases hphase
    | followPreCommit hm _ _ hcheck => exact absurd (hself hcheck rfl) (hforeign _ hm)
    | followCommit hm _ _ hcheck => exact absurd (hself hcheck (by simp)) (hforeign _ hm)
    | @certifyPrepare _ qc _ _ hcertificate hprepare =>
      obtain rfl := Option.some.inj hphase
      refine ⟨qc, by simp, (certificate_phase hcertificate).trans hprepare, ?_⟩
      simpa using certificate_view hcertificate
    | @certifyPreCommit _ qc _ _ hcertificate hpreCommit =>
      obtain rfl := Option.some.inj hphase
      refine ⟨qc, by simp, (certificate_phase hcertificate).trans hpreCommit, ?_⟩
      simpa using certificate_view hcertificate
    | begin => exact hkeep rfl rfl
    | _ => exact hkeep (by simp) (by simp)

/-- The letter has a certificate that the core made in its view for the phase before. -/
structure Opening (l : Life Unit σ) (x : Letter) : Prop where
  phase : x.body.justify.phase = certifiedPhase x.kind
  view : x.body.justify.view = x.body.view
  certified : .certified x.body.justify ∈ l.done

theorem Reached.opening (h : Reached ctx l) {x : Letter} (hx : x ∈ l.letters)
    (hkind : x.kind = .preCommit ∨ x.kind = .commit ∨ x.kind = .decide) : Opening l x := by
  obtain ⟨e, he, hletter⟩ := List.mem_filterMap.1 hx
  refine h.forall_done (P := fun l e => ∀ x, e.letter? = some x →
    x.kind = .preCommit ∨ x.kind = .commit ∨ x.kind = .decide → Opening l x)
    (fun hmove hold x hletter hkind => ?_) (fun _ _ hasked x hletter hkind => ?_) e he x hletter hkind
  · obtain ⟨hphase, hview, hcertified⟩ := hold x hletter hkind
    exact ⟨hphase, hview, hmove.done_subset hcertified⟩
  · have wrote : ∀ {kind body letter}, ctx.Wrote kind body letter → some letter = some x →
        kind = .preCommit ∨ kind = .commit ∨ kind = .decide := fun hwrote hsome => by
      obtain rfl := Option.some.inj hsome
      exact hwrote.kind_eq ▸ hkind
    cases hasked with
    | @announce proposal qc kind phase _ _ _ hcertificate hphase hcertified hwrote =>
      obtain rfl := Option.some.inj hletter
      have hopened : qc.phase = certifiedPhase kind := by
        simp only [List.mem_cons, Prod.mk.injEq, List.not_mem_nil, or_false] at hphase
        rcases hphase with ⟨rfl, -, hqc⟩ | ⟨rfl, -, hqc⟩ | ⟨rfl, -, hqc⟩ <;> exact hqc
      refine ⟨?_, ?_, ?_⟩
      · rw [hwrote.body_eq, hwrote.kind_eq]
        exact hopened
      · rw [hwrote.body_eq]
        exact certificate_view hcertificate
      · rw [hwrote.body_eq]
        exact hcertified
    | report _ hwrote => simpa using wrote hwrote hletter
    | propose _ _ _ _ _ hwrote => simpa using wrote hwrote hletter
    | votePrepare _ _ _ _ hwrote => simpa using wrote hwrote hletter
    | votePreCommit _ _ _ hwrote => simpa using wrote hwrote hletter
    | voteCommit _ _ _ hwrote => simpa using wrote hwrote hletter
    | resetTimer | wrote | certified | deliverOwn | deliverHeard | postpone => cases hletter

/-- A delivered payload is the core's own proposal, or it is the one that the leader's Decide
certifies. -/
theorem Reached.delivered (h : Reached ctx l) (hforeign : Foreign ctx l) {view : View}
    {payload : Payload} (hdone : .deliver view payload ∈ l.done) :
    ((∃ b ∈ l.proposals, b.view = view ∧ b.payload = payload) ∧ Certified l .preCommit view) ∨
      ∃ m, ⟨.decide, m⟩ ∈ l.heard ∧ m.signer = (ctx.leader view).key ∧ m.view = view ∧
        m.justify.payload = payload := by
  refine h.forall_done (P := fun l e => Foreign ctx l → ∀ view payload, e = .deliver view payload →
      ((∃ b ∈ l.proposals, b.view = view ∧ b.payload = payload) ∧ Certified l .preCommit view) ∨
        ∃ m, ⟨.decide, m⟩ ∈ l.heard ∧ m.signer = (ctx.leader view).key ∧ m.view = view ∧
          m.justify.payload = payload)
    (fun hmove hold hforeign view payload he => ?_)
    (fun hreached hmove hasked hforeign view payload he => ?_) _ hdone hforeign _ _ rfl
  · rcases hold (hmove.foreign hforeign) view payload he with
      ⟨⟨b, hb, hbody⟩, hstaged⟩ | ⟨m, hm, hrest⟩
    · exact .inl ⟨⟨b, hmove.proposals_subset hb, hbody⟩, hstaged.move hmove⟩
    · exact .inr ⟨m, hmove.heard_subset hm, hrest⟩
  · subst he
    cases hasked with
    | deliverOwn hleads hproposal _ hphase =>
      obtain ⟨hmem, hview⟩ := hreached.proposal (hmove.foreign hforeign) hleads hproposal
      have hstaged : Certified _ .preCommit _ :=
        hreached.staged (hmove.foreign hforeign) hleads (by rw [hphase]; rfl)
      exact .inl ⟨⟨_, hmove.proposals_subset hmem, hview, rfl⟩, hstaged.move hmove⟩
    | deliverHeard hm hview hcheck =>
      have hleader := (leader_of_checkCertified hcheck).1
      exact .inr ⟨_, hmove.heard_subset hm, hleader.symm, hview, rfl⟩

/-- A certificate of the `prepare` phase that is for an own proposal, or that the leader sent. -/
def Known (ctx : Context σ) (l : Life Unit σ) (qc : Certificate) : Prop :=
  qc.phase = .prepare ∧ ((∃ b ∈ l.proposals, b.view = qc.view ∧ b.payload = qc.payload) ∨
    ∃ m, ⟨.preCommit, m⟩ ∈ l.heard ∧ m.signer = (ctx.leader qc.view).key ∧ m.view = qc.view ∧
      m.justify = qc)

theorem Known.move {qc : Certificate} (h : Known ctx l qc) (hmove : Move ctx l l') :
    Known ctx l' qc := by
  obtain ⟨hphase, ⟨b, hb, hbody⟩ | ⟨m, hm, hrest⟩⟩ := h
  · exact ⟨hphase, .inl ⟨b, hmove.proposals_subset hb, hbody⟩⟩
  · exact ⟨hphase, .inr ⟨m, hmove.heard_subset hm, hrest⟩⟩

theorem Reached.prepared (h : Reached ctx l) (hforeign : Foreign ctx l) {qc : Certificate}
    (hqc : l.state.prepared = some qc) : Known ctx l qc ∧ (qc.view < l.state.view ∨
      qc.view = l.state.view ∧ l.state.phase ≠ .newView) := by
  induction h with
  | born app => cases hqc
  | @move l l' hreached hmove ih =>
    have hold := ih (hmove.foreign hforeign)
    -- With the certificate kept, a later view leaves it behind and this one goes on.
    have hkeep : l'.state.prepared = l.state.prepared → Known ctx l' qc ∧
        (qc.view < l'.state.view ∨ qc.view = l'.state.view ∧ l'.state.phase ≠ .newView) := by
      intro hsame
      obtain ⟨hknown, hview⟩ := hold (hsame ▸ hqc)
      refine ⟨hknown.move hmove, ?_⟩
      rcases hmove.ascends with hlt | ⟨heq, hphase⟩
      · refine .inl ?_
        rcases hview with hview | ⟨hview, -⟩
        · exact UInt64.lt_trans hview hlt
        · exact hview ▸ hlt
      · rcases hview with hview | ⟨hview, hleft⟩
        · exact .inl (heq ▸ hview)
        · exact .inr ⟨hview.trans heq, hphase hleft⟩
    rcases hmove.prepared_cases with hsame | ⟨qc', hnew, hopens⟩
    · exact hkeep hsame
    · obtain rfl : qc' = qc := Option.some.inj (hnew.symm.trans hqc)
      have hleft : l'.state.phase ≠ .newView := by simp [← Option.some.inj hopens.phase]
      have hgained := hopens.gains.view
      refine ⟨⟨hopens.gains.phase, ?_⟩, .inr ⟨hgained.trans hopens.view.symm, hleft⟩⟩
      cases hopens.gains with
      | heard hm hview hcheck =>
        have hleader := (leader_of_checkCertified hcheck).1
        exact .inr ⟨_, hmove.heard_subset hm, hgained ▸ hleader.symm, hview.trans hgained.symm, rfl⟩
      | made hleads hproposal hqc =>
        obtain ⟨hmem, hview⟩ := hreached.proposal (hmove.foreign hforeign) hleads hproposal
        exact .inl ⟨_, hmove.proposals_subset hmem, hview.trans hgained.symm,
          (certificate_payload hqc).symm⟩

/-- The view in which an effect is a vote for the `preCommit` phase or a certificate of the
`prepare` phase. -/
def backed? : Effect → Option View
  | .send _ x => if x.kind = .vote ∧ x.body.phase = .preCommit then some x.body.view else none
  | .certified qc => if qc.phase = .prepare then some qc.view else none
  | _ => none

/-- The core voted for the `preCommit` phase of `view`, or made its certificate of the `prepare`
phase. -/
def Backs (l : Life Unit σ) (view : View) : Prop := ∃ e ∈ l.done, backed? e = some view

theorem backed?_of_wrote {receiver : Member} {kind : MessageKind} {body : Body} {letter : Letter}
    (h : ctx.Wrote kind body letter) : backed? (.send receiver letter) =
      if kind = .vote ∧ body.phase = .preCommit then some body.view else none := by
  rw [backed?, h.kind_eq, h.body_eq]

theorem backed?_certified {s : State} {payload : Payload} {qc : Certificate}
    (h : certificate? ctx s payload = .ok (some qc)) : backed? (.certified qc) =
      if s.phase = .prepare then some s.view else none := by
  rw [backed?, certificate_phase h, certificate_view h]

theorem backed?_posted {receiver : Member} {kind : MessageKind} {body : Body}
    (h : ¬(kind = .vote ∧ body.phase = .preCommit)) :
    ∀ e ∈ ctx.posted receiver kind body, backed? e = none := by
  refine Context.forall_posted (fun _ _ => rfl) fun letter hwrote _ => ?_
  rw [backed?_of_wrote hwrote, if_neg h]

theorem backed?_announced {kind : MessageKind} {body : Body} :
    ∀ e ∈ ctx.announced kind body, backed? e = none :=
  Context.forall_announced (fun _ _ => rfl) fun _ _ => rfl

theorem backed?_certifying {s : State} {payload : Payload} {qc : Certificate} {es : List Effect}
    (h : certificate? ctx s payload = .ok (some qc)) (hphase : s.phase ≠ .prepare)
    (hes : ∀ e ∈ es, backed? e = none) :
    ∀ e ∈ .certified qc :: .resetTimer :: es, backed? e = none := by
  simp only [List.forall_mem_cons]
  exact ⟨by rw [backed?_certified h, if_neg hphase], rfl, hes⟩

theorem Move.backs (h : Move ctx l l') {view : View} (hbacks : Backs l' view) : Backs l view ∨
    view = l.state.view ∧ l'.state.view = l.state.view ∧
      ∃ qc, l'.state.prepared = some qc ∧ qc.view = view := by
  obtain ⟨e, he, hview⟩ := hbacks
  have hnew : ∀ es, l'.done = l.done ++ es → Backs l view ∨ e ∈ es := by
    intro es hdone
    rw [hdone, List.mem_append] at he
    exact he.imp_left fun he => ⟨e, he, hview⟩
  have hnone : ∀ es, l'.done = l.done ++ es → (∀ e ∈ es, backed? e = none) → Backs l view := by
    intro es hdone hes
    refine (hnew es hdone).resolve_right fun he => ?_
    rw [hes e he] at hview
    cases hview
  -- Only the vote to lock and the certificate of the first phase stand behind anything.
  cases h with
  | followPreCommit hm hviewm hrank hcheck =>
    refine (hnew _ rfl).imp_right fun he => ?_
    rcases List.mem_cons.1 he with rfl | he
    · cases hview
    · obtain ⟨letter, hwrote, rfl | ⟨-, rfl⟩⟩ := Context.mem_posted.1 he
      · cases hview
      · rw [backed?_of_wrote hwrote] at hview
        obtain rfl : l.state.view = view := by simpa [Body.plain] using hview
        exact ⟨rfl, rfl, _, rfl, (leader_of_checkCertified hcheck).2.2⟩
  | certifyPrepare hleads hproposal hqc hphase =>
    refine (hnew _ rfl).imp_right fun he => ?_
    rcases List.mem_cons.1 he with rfl | he
    · rw [backed?_certified hqc, if_pos hphase] at hview
      obtain rfl := Option.some.inj hview
      exact ⟨rfl, rfl, _, rfl, certificate_view hqc⟩
    · rcases List.mem_cons.1 he with rfl | he
      · cases hview
      · rw [backed?_announced e he] at hview
        cases hview
  | hear | note | retouch | stop => exact .inl ⟨e, he, hview⟩
  | begin | enter | propose | followDecide => exact .inl (hnone _ rfl (by simp [backed?]))
  | keep | squander | log => exact .inl (hnone _ rfl (by simp))
  | report => exact .inl (hnone _ rfl (backed?_posted (by simp)))
  | accept | followCommit =>
    refine .inl (hnone _ rfl (List.forall_mem_cons.2 ⟨rfl, backed?_posted ?_⟩))
    simp [Body.plain]
  | certifyPreCommit _ _ hqc hphase =>
    refine .inl (hnone _ rfl (backed?_certifying hqc ?_ backed?_announced))
    simp [hphase]
  | certifyCommit _ _ hqc hphase | certifyUnsigned _ _ hqc hphase =>
    refine .inl (hnone _ rfl (backed?_certifying hqc ?_ (by simp [backed?])))
    simp [hphase]
  | certifyIdle _ _ hqc hphase =>
    refine .inl (hnone _ rfl (backed?_certifying hqc ?_ (by simp)))
    intro hprepare
    exact hphase (by simp [hprepare])

theorem Reached.backed (h : Reached ctx l) {view : View} (hbacks : Backs l view) :
    view ≤ l.state.view ∧ ∃ qc, l.state.prepared = some qc ∧ view ≤ qc.view := by
  induction h with
  | born app =>
    obtain ⟨e, he, -⟩ := hbacks
    cases he
  | @move l l' hreached hmove ih =>
    rcases hmove.backs hbacks with hold | ⟨rfl, hview, qc, hqc, heq⟩
    · obtain ⟨hle, qc, hqc, hleqc⟩ := ih hold
      refine ⟨?_, ?_⟩
      · exact UInt64.le_trans hle hmove.le_view
      · rcases hmove.prepared_cases with hsame | ⟨qc', hqc', hopens⟩
        · exact ⟨qc, hsame ▸ hqc, hleqc⟩
        · exact ⟨qc', hqc', hopens.gains.view ▸ hle⟩
    · exact ⟨hview ▸ UInt64.le_refl _, qc, hqc, heq ▸ UInt64.le_refl _⟩

/-- A NewView has a certificate no older than each earlier view that the core backs. The certificate
is the starting one, or known and of an earlier view. -/
structure Report (ctx : Context σ) (l : Life Unit σ) (x : Letter) : Prop where
  phase : x.body.phase = .newView
  le_view : x.body.view ≤ l.state.view
  backed : ∀ view < x.body.view, Backs l view → view ≤ x.body.justify.view
  known : x.body.justify = Certificate.genesis ∨
    Known ctx l x.body.justify ∧ x.body.justify.view < x.body.view

theorem Report.move {x : Letter} (h : Report ctx l x) (hmove : Move ctx l l') :
    Report ctx l' x where
  phase := h.phase
  le_view := UInt64.le_trans h.le_view hmove.le_view
  backed view hlt hbacks := by
    rcases hmove.backs hbacks with hbacks | ⟨rfl, -⟩
    · exact h.backed view hlt hbacks
    · exact absurd hlt (UInt64.not_lt.2 h.le_view)
  known := h.known.imp_right fun ⟨hknown, hlt⟩ => ⟨hknown.move hmove, hlt⟩

/-- A NewView that a core signs in the phase `newView` of its view is a report. -/
theorem Reached.report_of_wrote (h : Reached ctx l) (hforeign : Foreign ctx l)
    (hphase : l.state.phase = .newView) {x : Letter}
    (hwrote : ctx.Wrote .newView (newViewBody l.state) x) : Report ctx l x := by
  have hbody := hwrote.body_eq
  have hview : x.body.view = l.state.view := by rw [hbody]; rfl
  have hjustify : x.body.justify = l.state.highCertificate := by rw [hbody]; rfl
  refine ⟨by rw [hbody]; rfl, hview ▸ UInt64.le_refl _, fun view hlt hbacks => ?_, ?_⟩
  · obtain ⟨-, qc, hqc, hle⟩ := h.backed hbacks
    simpa [hjustify, State.highCertificate, hqc] using hle
  · cases hqc : l.state.prepared with
    | none => exact .inl (by simp [hjustify, State.highCertificate, hqc])
    | some qc =>
      have hhigh : x.body.justify = qc := by simp [hjustify, State.highCertificate, hqc]
      obtain ⟨hknown, hlt | ⟨-, hleft⟩⟩ := h.prepared hforeign hqc
      · exact .inr ⟨hhigh ▸ hknown, by rwa [hhigh, hview]⟩
      · exact absurd hphase hleft

theorem Reached.report (h : Reached ctx l) (hforeign : Foreign ctx l) {x : Letter}
    (hx : x ∈ l.letters) (hkind : x.kind = .newView) : Report ctx l x := by
  have hall := h.forall_done (P := fun l e => Foreign ctx l → ∀ x, e.letter? = some x →
    x.kind = .newView → Report ctx l x) ?_ ?_
  · obtain ⟨e, he, hletter⟩ := List.mem_filterMap.1 hx
    exact hall e he hforeign x hletter hkind
  · intro l l' e hmove hold hforeign x hletter hkind
    exact (hold (hmove.foreign hforeign) x hletter hkind).move hmove
  · intro l l' e hreached hmove hasked hforeign x hletter hkind
    have wrote : ∀ {kind body letter}, ctx.Wrote kind body letter → some letter = some x →
        kind = .newView := fun hwrote hsome => by
      obtain rfl := Option.some.inj hsome
      exact hwrote.kind_eq ▸ hkind
    cases hasked with
    | report hphase hwrote =>
      obtain rfl := Option.some.inj hletter
      exact (hreached.report_of_wrote (hmove.foreign hforeign) hphase hwrote).move hmove
    | propose _ _ _ _ _ hwrote => simpa using wrote hwrote hletter
    | announce _ _ _ hphase _ hwrote =>
      have hnewView := wrote hwrote hletter
      simp [hnewView] at hphase
    | votePrepare _ _ _ _ hwrote => simpa using wrote hwrote hletter
    | votePreCommit _ _ _ hwrote => simpa using wrote hwrote hletter
    | voteCommit _ _ _ hwrote => simpa using wrote hwrote hletter
    | resetTimer | wrote | certified | deliverOwn | deliverHeard | postpone => cases hletter

/-- A quorum of NewViews that were heard for the view of `b`. The proposal `b` is built on the
highest of their certificates. -/
structure Grounds (ctx : Context σ) (l : Life Unit σ) (b : Body) (newViews : List SignedBody)
    (best : SignedBody) : Prop where
  collected : Collected ctx l.heard .newView b.view newViews
  best_mem : best ∈ newViews
  highest : ∀ m ∈ newViews, m.justify.view ≤ best.justify.view
  justify : b.justify.subject = best.justify.subject
  parent : b.payload.parent = b.justify.payload.hash ctx.scheme

theorem Reached.grounds (h : Reached ctx l) {b : Body} (hb : b ∈ l.proposals) :
    ∃ newViews best, Grounds ctx l b newViews best := by
  induction h with
  | born app => simp [Life.initial, Life.proposals] at hb
  | @move l l' hreached hmove ih =>
    have hold : b ∈ l.proposals → ∃ newViews best, Grounds ctx l' b newViews best := fun hb => by
      obtain ⟨newViews, best, hgrounds⟩ := ih hb
      exact ⟨newViews, best, { hgrounds with
        collected := hgrounds.collected.mono hmove.heard_subset }⟩
    rcases hmove.proposals with hsame | ⟨best, high, body, hmore, -, -, -, -, hbest, htaken,
      hview, hjustify, hparent⟩
    · exact hold (hsame ▸ hb)
    · rw [hmore, List.mem_append, List.mem_singleton] at hb
      rcases hb with hb | rfl
      · exact hold hb
      · have hcollected := collected_of_best hreached.logged.newViews hbest
        refine ⟨l.state.newViews.forView l.state.view, best,
          hview ▸ hcollected.mono hmove.heard_subset, best_mem hbest, view_le_best hbest, ?_, ?_⟩
        · rw [hjustify, subject_taken htaken]
        · rw [hparent, hjustify]

theorem Reached.certified_before (h : Reached ctx l) (hforeign : Foreign ctx l) {qc : Certificate}
    (hqc : .certified qc ∈ l.done) {phase : Phase} (hphase : before? qc.phase = some phase) :
    Certified l phase qc.view := by
  refine h.forall_asked .certified (P := fun l qc => Foreign ctx l →
      before? qc.phase = some phase → Certified l phase qc.view)
    (fun hmove hold hforeign hphase => (hold (hmove.foreign hforeign) hphase).move hmove)
    (fun hreached hmove hasked hforeign hphase => ?_) qc hqc hforeign hphase
  cases hasked with
  | certified hleads hproposal hcertificate =>
    rw [certificate_phase hcertificate] at hphase
    have hstaged := hreached.staged (hmove.foreign hforeign) hleads hphase
    exact certificate_view hcertificate ▸ hstaged.move hmove

end Concord.Core.Basic
