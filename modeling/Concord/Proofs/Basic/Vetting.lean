import Concord.Proofs.Basic.Payloads
import Concord.Proofs.Vetting

/-!
The data that a core of the five-phase protocol holds and delivers. The application has vouched for
the data of all proposals that the core holds. A core without a proposal delivers the payload of a
Decide without consulting the application.
-/

namespace Concord.Core.Basic

open Handler

variable {σ : Type} {ctx : Context σ}

section Turns

variable {held : Option Body} {app₀ : σ} {t t' : Turn Unit σ} {m : SignedBody}

/-- The proposal is the one from the start of the turn or an own one, and all deliveries are of the
former. -/
structure Kept (ctx : Context σ) (held : Option Body) (app₀ : σ) (t : Turn Unit σ) : Prop where
  proposal : ∀ b, t.state.proposal = some b → held = some b ∨ Offers ctx app₀ t.effects b
  delivered : ∀ view payload, .deliver view payload ∈ t.effects →
    ∃ b, held = some b ∧ payload = b.payload

theorem Kept.more (h : Kept ctx held app₀ t) (es : List Effect)
    (hproposal : t'.state.proposal = none ∨ t'.state.proposal = t.state.proposal)
    (heffects : t'.effects = t.effects ++ es) (hes : es.filterMap Effect.decision? = []) :
    Kept ctx held app₀ t' where
  proposal b hb := by
    rcases hproposal with hnone | hsame
    · rw [hnone] at hb
      cases hb
    · rw [heffects]
      exact (h.proposal b (hsame ▸ hb)).imp_right fun hoffers =>
        hoffers.mono (List.subset_append_left _ _)
  delivered view payload hmem := by
    rw [heffects, List.mem_append] at hmem
    rcases hmem with hmem | hmem
    · exact h.delivered view payload hmem
    · have hview : view ∈ es.filterMap Effect.decision? := List.mem_filterMap.2 ⟨_, hmem, rfl⟩
      rw [hes] at hview
      cases hview

theorem Kept.tryLead (h : Kept ctx held app₀ t) (happ : AskedIn ctx app₀ t.effects t.app) :
    Kept ctx held app₀ (exec (tryLead ctx) t).2 := by
  have htried := exec_tryLead ctx t
  generalize (exec (Basic.tryLead ctx) t).2 = t' at htried
  cases htried with
  | idle => exact h
  | squandered => exact h.more _ (.inr rfl) (List.append_nil _).symm rfl
  | @proposed _ high data app letter body _ _ _ _ hproduce hbody hwrote =>
    refine ⟨fun b hb => .inr ?_, fun view payload hmem => ?_⟩
    · obtain rfl := Option.some.inj hb
      refine ⟨⟨.broadcast letter, by simp, ?_⟩, t.app, app,
        happ.mono (List.subset_append_left _ _), hbody ▸ hproduce⟩
      simp [Effect.proposal?, hwrote.kind_eq, hwrote.body_eq]
    · exact h.delivered view payload (by simpa using hmem)

theorem Kept.openRound (h : Kept ctx held app₀ t) (happ : AskedIn ctx app₀ t.effects t.app) :
    Kept ctx held app₀ (exec (openRound ctx) t).2 := by
  rw [Basic.openRound, exec_bind, exec_state]
  simp only [exec_ite]
  split
  · exact h.tryLead happ
  · rw [exec_post]
    exact h.more _ (.inr rfl) rfl (decisions_posted ..)

theorem Kept.advanceTo {view : View} (h : Kept ctx held app₀ t)
    (happ : AskedIn ctx app₀ t.effects t.app) :
    Kept ctx held app₀ (exec (advanceTo (Basic.openRound ctx) view) t).2 := by
  rw [exec_advanceTo]
  exact (h.more [.resetTimer] (.inl rfl) rfl rfl).openRound
    (happ.mono (List.subset_append_left _ _))

theorem Kept.onNewView (h : Kept ctx held app₀ t) (happ : AskedIn ctx app₀ t.effects t.app) :
    Kept ctx held app₀ (exec (onNewView ctx m) t).2 := by
  have hkeep := exec_acceptNewView ctx m t
  rw [Basic.onNewView, exec_bind]
  rcases hexec : exec (acceptNewView ctx m) t with ⟨result, t'⟩
  rw [hexec] at hkeep
  obtain ⟨hkept, happ'⟩ : Kept ctx held app₀ t' ∧ AskedIn ctx app₀ t'.effects t'.app := by
    rcases hkeep with rfl | ⟨-, -, -, rfl⟩
    · exact ⟨h, happ⟩
    · exact ⟨h.more _ (.inr rfl) (List.append_nil _).symm rfl, happ⟩
  rcases result with fault | _ | _
  · exact hkept
  · exact hkept
  · exact hkept.tryLead happ'

theorem Kept.certify {view : View} {proposal : Body} {qc : Certificate} (h : Kept ctx held app₀ t)
    (happ : t.app = app₀) (hheld : held = some proposal) :
    Kept ctx held app₀ (exec (certify ctx view proposal.payload qc) t).2 := by
  unfold Basic.certify
  split
  · rw [exec_bind, exec_update]
    dsimp only
    rw [exec_announce]
    exact h.more _ (.inr rfl) rfl (decisions_announced ..)
  · rw [exec_bind, exec_update]
    dsimp only
    rw [exec_announce]
    exact h.more _ (.inr (State.lock_proposal _ _)) rfl (decisions_announced ..)
  · simp only [exec_bind, exec_update, exec_write]
    cases hbuild : ctx.build .decide (Body.plain view .decide proposal.payload qc) with
    | error fault => exact h.more _ (.inr rfl) (List.append_nil _).symm rfl
    | ok letter =>
      simp only [exec_broadcast, exec_deliver, exec_lift, List.append_assoc]
      have hdelivered : Kept ctx held app₀ { t with
          state := { t.state with phase := .decide, decided := t.state.decided + 1 }
          app := ctx.application.deliver t.app view proposal.payload
          effects := t.effects ++
            [.wrote letter, .broadcast letter, .deliver view proposal.payload] } := by
        refine ⟨fun b hb => ?_, fun view' payload hmem => ?_⟩
        · exact (h.proposal b hb).imp_right fun hoffers =>
            hoffers.mono (List.subset_append_left _ _)
        · rcases List.mem_append.1 hmem with hmem | hmem
          · exact h.delivered view' payload hmem
          · obtain ⟨-, rfl⟩ : view' = view ∧ payload = proposal.payload := by simpa using hmem
            exact ⟨proposal, hheld, rfl⟩
      cases nextView view with
      | error fault => exact hdelivered
      | ok next => exact hdelivered.advanceTo (happ ▸ .told (by simp))
  · exact h

theorem Kept.onVote (h : Kept ctx t.state.proposal app₀ t) (happ : t.app = app₀) :
    Kept ctx t.state.proposal app₀ (exec (onVote ctx m) t).2 := by
  rw [Basic.onVote, exec_bind, exec_state]
  simp only [exec_ite]
  split
  · exact h
  · cases hproposal : t.state.proposal with
    | none =>
      rw [hproposal] at h
      exact h
    | some proposal =>
      rw [hproposal] at h
      simp only [exec_ite]
      split
      · exact h
      · rw [exec_bind, exec_update]
        dsimp only
        rw [exec_bind, exec_state]
        dsimp only
        rw [exec_bind, exec_lift]
        rcases certificate? ctx { t.state with votes := t.state.votes.insert m }
            proposal.payload with fault | _ | qc
        · exact h.more _ (.inr rfl) (List.append_nil _).symm rfl
        · exact h.more _ (.inr rfl) (List.append_nil _).symm rfl
        · dsimp only
          rw [exec_bind, exec_ask]
          dsimp only
          rw [exec_bind, exec_update]
          dsimp only
          rw [exec_bind, exec_resetTimer]
          dsimp only
          refine Kept.certify (h.more [.certified qc, .resetTimer] (.inr rfl) ?_ rfl) happ rfl
          simp

end Turns

/-- A running core without a proposal in its view receives a Decide that passes all checks. -/
structure Trusts (ctx : Context σ) (s : State) (envelope : Envelope) (m : SignedBody) : Prop where
  running : s.status = .running
  bare : s.proposal = none
  decide : envelope.kind = .decide
  read : ctx.receive envelope = .ok m
  view : m.view = s.view
  rank : rank s.phase < rank m.phase
  certified : checkCertified ctx s .decide m = .ok ()

theorem kept_onCertified (ctx : Context σ) (kind : MessageKind) (m : SignedBody) (t : Turn Unit σ)
    (ht : t.effects = []) :
    Kept ctx t.state.proposal t.app (exec (onCertified ctx kind m) t).2 ∨
      t.state.proposal = none ∧ Followable ctx kind m t ∧
        kind ∉ [MessageKind.preCommit, .commit] ∧
        (exec (onCertified ctx kind m) t).2 = followed ctx kind m.justify t := by
  have hstart : Kept ctx t.state.proposal t.app t :=
    ⟨fun b hb => .inl hb, fun _ _ hmem => by rw [ht] at hmem; cases hmem⟩
  rcases exec_onCertified ctx kind m t with ⟨hfollowable, hexec⟩ | ⟨-, hexec⟩
  · rw [hexec]
    unfold followed
    split
    · exact .inl (hstart.more _ (.inr rfl) rfl (decisions_posted ..))
    · exact .inl (hstart.more _ (.inr (State.lock_proposal _ _)) rfl (decisions_posted ..))
    · next hpreCommit hcommit =>
      cases hproposal : t.state.proposal with
      | none => exact .inr ⟨rfl, hfollowable, by simpa using ⟨hpreCommit, hcommit⟩, rfl⟩
      | some b =>
        have hpayload := payload_of_checkCertified hfollowable.2.2 hproposal
        refine .inl ⟨fun b' hb => .inl (hproposal ▸ hb), fun view payload hmem => ?_⟩
        obtain ⟨-, rfl⟩ : view = t.state.view ∧ payload = m.justify.payload := by
          simpa [ht] using hmem
        exact ⟨b, rfl, hpayload⟩
  · rw [hexec]
    exact .inl hstart

section Steps

variable {l : Life (Memory .basic) σ} {input : Input} {t : Turn (Memory .basic) σ}

theorem kept_turn (ctx : Context σ) (l : Life (Memory .basic) σ) :
    Kept ctx l.state.proposal l.app l.turn :=
  ⟨fun _ hb => .inl hb, nofun⟩

/-- The results of a turn: the proposal is kept, or a new one is accepted, or a Decide is followed
without a proposal. -/
inductive Turned (ctx : Context σ) (l : Life (Memory .basic) σ) :
    Input → Turn (Memory .basic) σ → Prop
  | kept {input : Input} {t : Turn (Memory .basic) σ} :
      Kept ctx l.state.proposal l.app t → Turned ctx l input t
  | tookUp {envelope : Envelope} {m : SignedBody} :
      ctx.receive envelope = .ok m → Acceptable ctx m l.turn →
      Turned ctx l (.feed envelope) { l.turn with
        state := { l.state.jump m.view with proposal := some m.body, phase := .prepare }
        effects := .resetTimer :: ballot ctx m.view .prepare m.body.payload }
  | trusted {envelope : Envelope} {m : SignedBody} :
      Trusts ctx l.state envelope m →
      Turned ctx l (.feed envelope) (followed ctx .decide m.justify l.turn)

theorem turned_dispatch {envelope : Envelope} {m : SignedBody} (hrunning : l.state.status = .running)
    (hreceive : ctx.receive envelope = .ok m) :
    Turned ctx l (.feed envelope) (exec (Machine.dispatch ctx envelope.kind m) l.turn).2 := by
  have hstart := kept_turn ctx l
  cases hkind : envelope.kind with
  | newView => exact .kept (hstart.onNewView .start)
  | vote =>
    have hvote : Kept ctx l.turn.state.proposal l.app (exec (onVote ctx m) l.turn).2 :=
      Kept.onVote hstart rfl
    exact .kept hvote
  | prepare =>
    have hprepare := exec_onPrepare ctx m l.turn
    rcases hprepare with ⟨hacceptable, hexec⟩ | ⟨-, hexec⟩
    · exact hexec.symm ▸ .tookUp hreceive hacceptable
    · exact .kept (hexec.symm ▸ hstart)
  | preCommit | commit =>
    have hcertified := kept_onCertified ctx envelope.kind m l.turn rfl
    rw [hkind] at hcertified
    rcases hcertified with hkept | ⟨-, -, hother, -⟩
    · exact .kept hkept
    · simp at hother
  | decide =>
    have hcertified := kept_onCertified ctx .decide m l.turn rfl
    rcases hcertified with hkept | ⟨hnone, ⟨hview, hrank, hcheck⟩, -, hfollowed⟩
    · exact .kept hkept
    · exact hfollowed.symm ▸ .trusted ⟨hrunning, hnone, hkind, hreceive, hview, hrank, hcheck⟩
  | generic => exact .kept hstart

theorem turned_step (input : Input) : Turned ctx l input (l.machine.step ctx input).turn := by
  have hends : Life.Ends ctx l input (l.machine.step ctx input).turn := Life.ends_step input
  generalize (l.machine.step ctx input).turn = t at hends ⊢
  have hstart := kept_turn ctx l
  cases hends with
  | ignored => exact .kept hstart
  | stopped => exact .kept (hstart.more _ (.inr rfl) (List.append_nil _).symm rfl)
  | began => exact .kept ((hstart.more [.resetTimer] (.inl rfl) rfl rfl).openRound .start)
  | read hrunning hreceive => exact turned_dispatch hrunning hreceive
  | advanced => exact .kept (hstart.advanceTo .start)
  | sent =>
    rw [exec_send]
    dsimp only
    split
    · exact .kept hstart
    · exact .kept (hstart.more [_] (.inr rfl) rfl rfl)

/-- The application vouches for each proposal that a core gets in a turn. -/
theorem vouches_of_held (h : Reached ctx l) {b : Body}
    (hb : (l.machine.step ctx input).machine.state.proposal = some b) :
    l.state.proposal = some b ∨ Vouches ctx l input b.payload.data := by
  have hturned : Turned ctx l input (l.machine.step ctx input).turn := turned_step input
  obtain ⟨t, ht⟩ : ∃ t, (l.machine.step ctx input).turn = t := ⟨_, rfl⟩
  have hstate : (l.machine.step ctx input).machine.state = t.state := congrArg Turn.state ht
  have heffects : (l.machine.step ctx input).effects = t.effects := congrArg Turn.effects ht
  rw [ht] at hturned
  rw [hstate] at hb
  cases hturned with
  | kept hkept => exact (hkept.proposal b hb).imp_right fun hoffers => .produced (heffects ▸ hoffers)
  | @tookUp envelope m hreceive hacceptable =>
    obtain ⟨hview, hfree, hcheck⟩ := hacceptable
    obtain rfl := Option.some.inj hb
    have hbare : l.state.view < m.view ∨ l.state.proposal = none := by
      rcases UInt64.lt_or_eq_of_le hview with hlt | heq
      · exact .inl hlt
      · refine .inr (Option.eq_none_iff_forall_ne_some.2 fun b' hb' => ?_)
        have hphase : l.state.phase = .newView := hfree heq.symm
        have hrank := h.rank_pos hb'
        simp [hphase, rank] at hrank
    exact .inr (.accepted ⟨hreceive, hbare, congrArg State.proposal hstate⟩
      (Context.accepts_of_checkProposal hcheck))
  | trusted => exact .inl hb

/-- A delivered payload is that of the proposal at the start of the turn, or the core `Trusts` a
Decide. -/
theorem delivered_cases {view : View} {payload : Payload}
    (h : .deliver view payload ∈ (l.machine.step ctx input).effects) :
    (∃ b, l.state.proposal = some b ∧ payload = b.payload) ∨
      ∃ envelope m, input = .feed envelope ∧ Trusts ctx l.state envelope m ∧
        view = l.state.view ∧ payload = m.justify.payload := by
  have hturned : Turned ctx l input (l.machine.step ctx input).turn := turned_step input
  have heffects : (l.machine.step ctx input).effects = (l.machine.step ctx input).turn.effects := rfl
  rw [heffects] at h
  generalize (l.machine.step ctx input).turn = t at hturned h
  cases hturned with
  | kept hkept => exact .inl (hkept.delivered view payload h)
  | tookUp =>
    have hview : view ∈ (ballot ctx _ .prepare _).filterMap Effect.decision? :=
      List.mem_filterMap.2 ⟨_, by simpa using h, rfl⟩
    rw [ballot, decisions_posted] at hview
    cases hview
  | @trusted envelope m htrusts =>
    obtain ⟨rfl, rfl⟩ : view = l.state.view ∧ payload = m.justify.payload := by
      simpa [followed] using h
    exact .inr ⟨envelope, m, rfl, htrusts, rfl, rfl⟩

/-- A core that `Trusts` a Decide delivers its payload. -/
theorem delivered_of_trusts {envelope : Envelope} {m : SignedBody}
    (h : Trusts ctx l.state envelope m) :
    .deliver l.state.view m.justify.payload ∈ (l.machine.step ctx (.feed envelope)).effects := by
  have hexec := exec_onCertified ctx .decide m l.turn
  rcases hexec with ⟨-, hexec⟩ | ⟨hnot, -⟩
  · have hturn : (l.machine.step ctx (.feed envelope)).turn =
        followed ctx .decide m.justify l.turn := by
      rw [Life.step_feed h.running h.read, h.decide]
      exact hexec
    have heffects : (l.machine.step ctx (.feed envelope)).effects =
        (followed ctx .decide m.justify l.turn).effects := congrArg Turn.effects hturn
    have hmem : Effect.deliver l.state.view m.justify.payload ∈
        (followed ctx .decide m.justify l.turn).effects := by simp [followed]
    exact heffects ▸ hmem
  · exact absurd ⟨h.view, h.rank, h.certified⟩ hnot

theorem vetted_of_held {vetted : Bytes → Prop} (h : Vetted ctx l vetted) {b : Body}
    (hb : l.state.proposal = some b) : vetted b.payload.data := by
  induction h with
  | born app => cases hb
  | take input hvetted _ ih =>
    exact (vouches_of_held (reached_of_lived hvetted.lived).2 hb).imp_left ih
  | retouch app _ ih => exact ih hb

end Steps

end Concord.Core.Basic
