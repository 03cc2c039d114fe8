import Concord.Proofs.Life
import Concord.Proofs.NewViews
import Mathlib.Logic.Relation

/-!
The moves of the five-phase protocol. A handler makes several changes and may fail between any two
of them, so an input corresponds to a sequence of moves. A property that holds initially and is
preserved by each move holds of every life.
-/

namespace Concord.Core.Basic

open Handler Relation

variable {σ : Type}

def ballot (ctx : Context σ) (view : View) (phase : Phase) (payload : Payload) : List Effect :=
  ctx.posted (ctx.leader view) .vote (Body.plain view phase payload Certificate.genesis)

inductive Move (ctx : Context σ) : Life Unit σ → Life Unit σ → Prop
  | hear {l : Life Unit σ} {letter : Letter} :
      ctx.Genuine letter →
      Move ctx l { l with heard := l.heard ++ [letter] }
  | note {l : Life Unit σ} : Move ctx l { l with past := l.past ++ [(l.state, l.memory)] }
  | retouch {l : Life Unit σ} {app : σ} : Move ctx l { l with app := app }
  | begin {l : Life Unit σ} :
      l.state.status = .init → l.state.phase = .newView →
      Move ctx l (l.after { l.turn with
        state := State.resetRound { l.state with status := .running }
        effects := [.resetTimer] })
  | stop {l : Life Unit σ} :
      Move ctx l { l with state := { l.state with status := .stopped } }
  | enter {l : Life Unit σ} {view : View} :
      l.state.view.next? = some view →
      Move ctx l (l.after { l.turn with
        state := State.resetRound { l.state with view := view, phase := .newView }
        effects := [.resetTimer] })
  | report {l : Life Unit σ} :
      ctx.leads l.state.view = false → l.state.phase = .newView → l.Blank →
      Move ctx l (l.after { l.turn with
        effects := ctx.posted (ctx.leader l.state.view) .newView (newViewBody l.state) })
  | keep {l : Life Unit σ} {m : SignedBody} :
      ⟨.newView, m⟩ ∈ l.heard → l.state.view ≤ m.view → l.state.inWindow m.view →
      (0 < m.justify.view → ctx.verifyCertificate m.justify) →
      Move ctx l (l.after { l.turn with
        state := { l.state with newViews := l.state.newViews.insert m } })
  /-- The application or the signer fails after the NewViews were removed. -/
  | squander {l : Life Unit σ} {best : SignedBody} {app : σ} :
      ctx.leads l.state.view → l.state.phase = .newView → best? ctx l.state = some best →
      Move ctx l (l.after { l.turn with
        state := { l.state with newViews := l.state.newViews.removeView l.state.view }
        app := app })
  | propose {l : Life Unit σ} {best : SignedBody} {high : Certificate} {data : Bytes} {app : σ}
      {letter : Letter} {body : Body} :
      ctx.leads l.state.view → l.state.phase = .newView → best? ctx l.state = some best →
      taken ctx l.state best = .ok high → ctx.application.produce l.app = (.ok data, app) →
      body = Body.plain l.state.view .prepare ⟨high.payload.hash ctx.scheme, data⟩ high →
      ctx.Wrote .prepare body letter →
      Move ctx l (l.after { l.turn with
        state := { l.state with
          newViews := l.state.newViews.removeView l.state.view
          proposal := some body
          phase := .prepare }
        app := app
        effects := [.wrote letter, .resetTimer, .broadcast letter] })
  | accept {l : Life Unit σ} {m : SignedBody} :
      ⟨.prepare, m⟩ ∈ l.heard → l.state.view ≤ m.view →
      (m.view = l.state.view → l.state.phase = .newView) →
      ctx.checkProposal l.state l.app m (extendsLock ctx m) = .ok () →
      Move ctx l (l.after { l.turn with
        state := { l.state.jump m.view with proposal := some m.body, phase := .prepare }
        effects := .resetTimer :: ballot ctx m.view .prepare m.body.payload })
  | followPreCommit {l : Life Unit σ} {m : SignedBody} :
      ⟨.preCommit, m⟩ ∈ l.heard → m.view = l.state.view → rank l.state.phase < rank m.phase →
      checkCertified ctx l.state .preCommit m = .ok () →
      Move ctx l (l.after { l.turn with
        state := { l.state with prepared := some m.justify, phase := .preCommit }
        effects := .resetTimer :: ballot ctx l.state.view .preCommit m.justify.payload })
  | followCommit {l : Life Unit σ} {m : SignedBody} :
      ⟨.commit, m⟩ ∈ l.heard → m.view = l.state.view → rank l.state.phase < rank m.phase →
      checkCertified ctx l.state .commit m = .ok () →
      Move ctx l (l.after { l.turn with
        state := { l.state.lock m.justify with phase := .commit }
        effects := .resetTimer :: ballot ctx l.state.view .commit m.justify.payload })
  | followDecide {l : Life Unit σ} {m : SignedBody} :
      ⟨.decide, m⟩ ∈ l.heard → m.view = l.state.view → rank l.state.phase < rank m.phase →
      checkCertified ctx l.state .decide m = .ok () →
      Move ctx l (l.after { l.turn with
        state := { l.state with phase := .decide, decided := l.state.decided + 1 }
        app := ctx.application.deliver l.app l.state.view m.justify.payload
        effects := [.resetTimer, .deliver l.state.view m.justify.payload,
          .postpone l.state.view .nextRound] })
  | log {l : Life Unit σ} {m : SignedBody} {proposal : Body} :
      ⟨.vote, m⟩ ∈ l.heard → ctx.leads l.state.view → m.view = l.state.view →
      m.phase = l.state.phase → l.state.proposal = some proposal →
      m.body.payload = proposal.payload →
      Move ctx l (l.after { l.turn with
        state := { l.state with votes := l.state.votes.insert m } })
  | certifyPrepare {l : Life Unit σ} {proposal : Body} {qc : Certificate} :
      ctx.leads l.state.view → l.state.proposal = some proposal →
      certificate? ctx l.state proposal.payload = .ok (some qc) → l.state.phase = .prepare →
      Move ctx l (l.after { l.turn with
        state := { l.state with
          votes := l.state.votes.removeView l.state.view
          prepared := some qc
          phase := .preCommit }
        effects := .certified qc :: .resetTimer :: ctx.announced .preCommit
          (Body.plain l.state.view .preCommit proposal.payload qc) })
  | certifyPreCommit {l : Life Unit σ} {proposal : Body} {qc : Certificate} :
      ctx.leads l.state.view → l.state.proposal = some proposal →
      certificate? ctx l.state proposal.payload = .ok (some qc) → l.state.phase = .preCommit →
      Move ctx l (l.after { l.turn with
        state := { ({ l.state with votes := l.state.votes.removeView l.state.view } : State).lock qc
          with phase := .commit }
        effects := .certified qc :: .resetTimer :: ctx.announced .commit
          (Body.plain l.state.view .commit proposal.payload qc) })
  | certifyCommit {l : Life Unit σ} {proposal : Body} {qc : Certificate} {letter : Letter} :
      ctx.leads l.state.view → l.state.proposal = some proposal →
      certificate? ctx l.state proposal.payload = .ok (some qc) → l.state.phase = .commit →
      ctx.Wrote .decide (Body.plain l.state.view .decide proposal.payload qc) letter →
      Move ctx l (l.after { l.turn with
        state := { l.state with
          votes := l.state.votes.removeView l.state.view
          phase := .decide
          decided := l.state.decided + 1 }
        app := ctx.application.deliver l.app l.state.view proposal.payload
        effects := [.certified qc, .resetTimer, .wrote letter, .broadcast letter,
          .deliver l.state.view proposal.payload] })
  /-- The Decide cannot be signed after the certificate of the `commit` phase was made. -/
  | certifyUnsigned {l : Life Unit σ} {proposal : Body} {qc : Certificate} :
      ctx.leads l.state.view → l.state.proposal = some proposal →
      certificate? ctx l.state proposal.payload = .ok (some qc) → l.state.phase = .commit →
      Move ctx l (l.after { l.turn with
        state := { l.state with
          votes := l.state.votes.removeView l.state.view
          phase := .decide }
        effects := [.certified qc, .resetTimer] })
  /-- A certificate of a phase that opens no other. -/
  | certifyIdle {l : Life Unit σ} {proposal : Body} {qc : Certificate} :
      ctx.leads l.state.view → l.state.proposal = some proposal →
      certificate? ctx l.state proposal.payload = .ok (some qc) →
      l.state.phase ∉ [Phase.prepare, .preCommit, .commit] →
      Move ctx l (l.after { l.turn with
        state := { l.state with votes := l.state.votes.removeView l.state.view }
        effects := [.certified qc, .resetTimer] })

abbrev Moves (ctx : Context σ) : Life Unit σ → Life Unit σ → Prop := ReflTransGen (Move ctx)

section Letters

variable {ctx : Context σ} {l l' : Life Unit σ}

theorem Move.le_view (h : Move ctx l l') : l.state.view ≤ l'.state.view := by
  cases h with
  | enter hnext => exact UInt64.le_of_lt (View.lt_next hnext)
  | accept hm hview => simpa [State.jump_view hview] using hview
  | begin => exact UInt64.le_refl _
  | _ => simp

/-- A move signs at most one letter, which is of the view and the phase after the move. -/
structure Signs (ctx : Context σ) (l l' : Life Unit σ) (kind : MessageKind) (body : Body) :
    Prop where
  view : body.view = l'.state.view
  phase : body.phase = l'.state.phase
  suits : ∀ phase, ownPhase? kind = some phase → body.phase = phase
  written : l'.written = l.written ++ ctx.signed kind body

theorem Move.written (h : Move ctx l l') :
    l'.written = l.written ∨ ∃ kind body, Signs ctx l l' kind body := by
  cases h with
  | hear | note | retouch | stop => exact .inl rfl
  | begin | enter | keep | squander | log => exact .inl (by simp [List.filterMap_cons])
  | followDecide | certifyUnsigned | certifyIdle => exact .inl (by simp [List.filterMap_cons])
  | report hleads hphase =>
    refine .inr ⟨.newView, newViewBody l.state, rfl, hphase.symm, ?_, ?_⟩
    · simp [ownPhase?, newViewBody, Body.plain]
    · simp [written_posted]
  | @propose _ _ _ _ letter body _ _ _ _ _ hbody hwrote =>
    refine .inr ⟨.prepare, body, by rw [hbody]; rfl, by rw [hbody]; rfl, ?_, ?_⟩
    · simp [ownPhase?, hbody, Body.plain]
    · simp [List.filterMap_cons, hwrote.signed]
  | @accept m hm hview =>
    refine .inr ⟨.vote, Body.plain m.view .prepare m.body.payload Certificate.genesis,
      (State.jump_view hview).symm, rfl, ?_, ?_⟩
    · simp [ownPhase?]
    · simp [ballot, List.filterMap_cons, written_posted]
  | @followPreCommit m =>
    refine .inr ⟨.vote, Body.plain l.state.view .preCommit m.justify.payload Certificate.genesis,
      rfl, rfl, ?_, ?_⟩
    · simp [ownPhase?]
    · simp [ballot, List.filterMap_cons, written_posted]
  | @followCommit m =>
    refine .inr ⟨.vote, Body.plain l.state.view .commit m.justify.payload Certificate.genesis,
      (State.lock_view _ _).symm, rfl, ?_, ?_⟩
    · simp [ownPhase?]
    · simp [ballot, List.filterMap_cons, written_posted]
  | @certifyPrepare proposal qc =>
    refine .inr ⟨.preCommit, Body.plain l.state.view .preCommit proposal.payload qc, rfl, rfl,
      ?_, ?_⟩
    · simp [ownPhase?, Body.plain]
    · simp [List.filterMap_cons, written_announced]
  | @certifyPreCommit proposal qc =>
    refine .inr ⟨.commit, Body.plain l.state.view .commit proposal.payload qc, ?_, rfl, ?_, ?_⟩
    · simp [Body.plain]
    · simp [ownPhase?, Body.plain]
    · simp [List.filterMap_cons, written_announced]
  | @certifyCommit proposal qc letter _ _ _ _ hwrote =>
    refine .inr ⟨.decide, Body.plain l.state.view .decide proposal.payload qc, rfl, rfl, ?_, ?_⟩
    · simp [ownPhase?, Body.plain]
    · simp [List.filterMap_cons, hwrote.signed]

theorem Move.timely (h : Move ctx l l') (htimely : l.Timely) : l'.Timely := by
  rcases h.written with hsame | ⟨kind, body, hsigns⟩
  · exact htimely.same hsame h.le_view
  · refine htimely.append hsigns.written h.le_view fun x hx => ?_
    rw [(Context.mem_signed.1 hx).body_eq, hsigns.view]

end Letters

section Handlers

variable {ctx : Context σ} {l : Life Unit σ} {t : Turn Unit σ}

theorem Moves.of_eq {l' : Life Unit σ} (h : l = l') : Moves ctx l l' :=
  h ▸ .refl

theorem Moves.of_move {l' l'' : Life Unit σ} (h : Move ctx l l') (he : l'' = l') :
    Moves ctx l l'' :=
  he ▸ .single h

theorem exec_sendVote (ctx : Context σ) (view : View) (phase : Phase) (payload : Payload)
    (t : Turn Unit σ) :
    (exec (sendVote ctx view phase payload) t).2 =
      { t with effects := t.effects ++ ballot ctx view phase payload } :=
  exec_post ctx _ _ _ t

/-- The results of a leader's attempt to propose. -/
inductive Tried (ctx : Context σ) (t : Turn Unit σ) : Turn Unit σ → Prop
  | idle : Tried ctx t t
  | squandered {best : SignedBody} {app : σ} :
      ctx.leads t.state.view → t.state.phase = .newView → best? ctx t.state = some best →
      Tried ctx t { t with
        state := { t.state with newViews := t.state.newViews.removeView t.state.view }
        app := app }
  | proposed {best : SignedBody} {high : Certificate} {data : Bytes} {app : σ} {letter : Letter}
      {body : Body} :
      ctx.leads t.state.view → t.state.phase = .newView → best? ctx t.state = some best →
      taken ctx t.state best = .ok high → ctx.application.produce t.app = (.ok data, app) →
      body = Body.plain t.state.view .prepare ⟨high.payload.hash ctx.scheme, data⟩ high →
      ctx.Wrote .prepare body letter →
      Tried ctx t { t with
        state := { t.state with
          newViews := t.state.newViews.removeView t.state.view
          proposal := some body
          phase := .prepare }
        app := app
        effects := t.effects ++ [.wrote letter, .resetTimer, .broadcast letter] }

theorem exec_tryLead_idle (h : ctx.leads t.state.view = false ∨ best? ctx t.state = none) :
    exec (tryLead ctx) t = (.ok (), t) := by
  rw [tryLead, exec_bind, exec_state]
  simp only [exec_ite]
  split
  · rfl
  · next hlead =>
    have hleads : ctx.leads t.state.view := by
      by_contra hnot
      simp [hnot] at hlead
    have hnone : best? ctx t.state = none := h.resolve_left (by simp [hleads])
    rw [exec_bind, exec_takeHighCertificate, hnone]
    rfl

theorem exec_tryLead (ctx : Context σ) (t : Turn Unit σ) :
    Tried ctx t (exec (tryLead ctx) t).2 := by
  rw [tryLead, exec_bind, exec_state]
  simp only [exec_ite]
  split
  · exact .idle
  · next hlead =>
    obtain ⟨hleads, hphase⟩ : ctx.leads t.state.view ∧ t.state.phase = .newView := by
      simpa using hlead
    rw [exec_bind, exec_takeHighCertificate]
    cases hbest : best? ctx t.state with
    | none => exact .idle
    | some best =>
      simp only
      cases htaken : taken ctx t.state best with
      | error fault => exact .idle
      | ok high =>
        simp only [exec_bind, exec_produce]
        rcases hproduce : ctx.application.produce t.app with ⟨fault | data, app⟩
        · exact .squandered hleads hphase hbest
        · simp only [produced, exec_write]
          cases hbuild : ctx.build .prepare (Body.plain t.state.view .prepare
              ⟨high.payload.hash ctx.scheme, data⟩ high) with
          | error fault => exact .squandered hleads hphase hbest
          | ok letter =>
            simp only [exec_update, exec_resetTimer, exec_broadcast, List.append_assoc]
            exact .proposed hleads hphase hbest htaken hproduce rfl (Context.wrote_of_build hbuild)

theorem moves_tryLead : Moves ctx (l.after t) (l.after (exec (tryLead ctx) t).2) := by
  have htried := exec_tryLead ctx t
  generalize (exec (tryLead ctx) t).2 = t' at htried
  cases htried with
  | idle => exact .refl
  | @squandered best app hleads hphase hbest =>
    exact Moves.of_move (@Move.squander _ _ _ _ app hleads hphase hbest)
      (by simp [Life.after, Life.turn])
  | proposed hleads hphase hbest htaken hproduce hbody hwrote =>
    exact Moves.of_move (.propose hleads hphase hbest htaken hproduce hbody hwrote)
      (by simp [Life.after, Life.turn])

theorem moves_openRound (h : t.state.phase = .newView) (hblank : (l.after t).Blank) :
    Moves ctx (l.after t) (l.after (exec (openRound ctx) t).2) := by
  rw [openRound, exec_bind, exec_state]
  simp only [exec_ite]
  split
  · exact moves_tryLead
  · next hlead =>
    have hleads : ctx.leads t.state.view = false := by simpa using hlead
    rw [exec_post]
    exact Moves.of_move (.report hleads h hblank) (by simp [Life.after, Life.turn])

theorem moves_advanceTo {view : View} (h : t.state.view.next? = some view)
    (htimely : (l.after t).Timely) :
    Moves ctx (l.after t) (l.after (exec (advanceTo (openRound ctx) view) t).2) := by
  rw [exec_advanceTo]
  refine ReflTransGen.head (.enter h) ?_
  have hopen : Moves ctx (l.after { t with
    state := State.resetRound { t.state with view := view, phase := .newView }
    effects := t.effects ++ [.resetTimer] }) _ :=
    moves_openRound rfl (Life.blank_entered h htimely)
  simpa [Life.after, Life.turn] using hopen

theorem moves_onNewView {m : SignedBody} (hm : ⟨.newView, m⟩ ∈ l.heard) :
    Moves ctx (l.after t) (l.after (exec (onNewView ctx m) t).2) := by
  rw [onNewView, exec_bind]
  have hkeep : Moves ctx (l.after t) (l.after (exec (acceptNewView ctx m) t).2) := by
    rcases exec_acceptNewView ctx m t with h | ⟨hview, hwindow, hjustify, h⟩
    · rw [h]
    · rw [h]
      exact Moves.of_move (.keep hm hview hwindow hjustify) (by simp [Life.after, Life.turn])
  rcases hexec : exec (acceptNewView ctx m) t with ⟨fault | kept, t'⟩
  · simpa [hexec] using hkeep
  · rw [hexec] at hkeep
    cases kept with
    | false => exact hkeep
    | true => exact hkeep.trans moves_tryLead

/-- The checks of a proposal. -/
def Acceptable (ctx : Context σ) (m : SignedBody) (t : Turn Unit σ) : Prop :=
  t.state.view ≤ m.view ∧ (m.view = t.state.view → t.state.phase = .newView) ∧
    ctx.checkProposal t.state t.app m (extendsLock ctx m) = .ok ()

/-- An acceptable proposal is accepted, and for any other the turn is unchanged. -/
theorem exec_onPrepare (ctx : Context σ) (m : SignedBody) (t : Turn Unit σ) :
    (Acceptable ctx m t ∧ (exec (onPrepare ctx m) t).2 = { t with
      state := { t.state.jump m.view with proposal := some m.body, phase := .prepare }
      effects := t.effects ++ .resetTimer :: ballot ctx m.view .prepare m.body.payload }) ∨
    (¬ Acceptable ctx m t ∧ (exec (onPrepare ctx m) t).2 = t) := by
  rw [onPrepare, exec_bind, exec_state]
  simp only [exec_ite]
  split
  · next hpast => exact .inr ⟨fun h => UInt64.not_le.2 hpast h.1, exec_pure _ _ ▸ rfl⟩
  · next hview =>
    split
    · next hbusy =>
      obtain ⟨hsame, hphase⟩ : m.view = t.state.view ∧ t.state.phase ≠ .newView := by
        simpa using hbusy
      exact .inr ⟨fun h => hphase (h.2.1 hsame), exec_pure _ _ ▸ rfl⟩
    · next hfree =>
      rw [exec_bind, exec_get]
      simp only
      rw [exec_bind, exec_lift]
      cases hcheck : ctx.checkProposal t.state t.app m (extendsLock ctx m) with
      | error fault =>
        refine .inr ⟨fun h => ?_, rfl⟩
        have hok := h.2.2
        rw [hcheck] at hok
        cases hok
      | ok _ =>
        have hfree : m.view = t.state.view → t.state.phase = .newView := by simpa using hfree
        refine .inl ⟨⟨UInt64.not_lt.1 hview, hfree, hcheck⟩, ?_⟩
        simp only [exec_ite]
        split
        · next hlater =>
          simp only [exec_bind, exec_update, exec_resetTimer, exec_sendVote]
          simp [State.jump, hlater]
        · next hlater =>
          simp only [exec_bind, exec_update, exec_resetTimer, exec_sendVote]
          simp [State.jump, hlater]

theorem moves_onPrepare {m : SignedBody} (hm : ⟨.prepare, m⟩ ∈ l.heard) :
    Moves ctx (l.after t) (l.after (exec (onPrepare ctx m) t).2) := by
  rcases exec_onPrepare ctx m t with ⟨⟨hview, hfree, hcheck⟩, hexec⟩ | ⟨-, hexec⟩
  · rw [hexec]
    exact Moves.of_move (.accept hm hview hfree hcheck) (by simp [Life.after, Life.turn])
  · rw [hexec]

/-- The turn after a member accepted the certificate in an announcement of the given kind. -/
def followed (ctx : Context σ) (kind : MessageKind) (qc : Certificate) (t : Turn Unit σ) :
    Turn Unit σ :=
  match kind with
  | .preCommit =>
    { t with
      state := { t.state with prepared := some qc, phase := .preCommit }
      effects := t.effects ++ .resetTimer :: ballot ctx t.state.view .preCommit qc.payload }
  | .commit =>
    { t with
      state := { t.state.lock qc with phase := .commit }
      effects := t.effects ++ .resetTimer :: ballot ctx t.state.view .commit qc.payload }
  | _ =>
    { t with
      state := { t.state with phase := .decide, decided := t.state.decided + 1 }
      app := ctx.application.deliver t.app t.state.view qc.payload
      effects := t.effects ++ [.resetTimer, .deliver t.state.view qc.payload,
        .postpone t.state.view .nextRound] }

/-- The checks of an announcement. -/
def Followable (ctx : Context σ) (kind : MessageKind) (m : SignedBody) (t : Turn Unit σ) : Prop :=
  m.view = t.state.view ∧ rank t.state.phase < rank m.phase ∧
    checkCertified ctx t.state kind m = .ok ()

/-- A followable announcement is followed, and for any other the turn is unchanged. -/
theorem exec_onCertified (ctx : Context σ) (kind : MessageKind) (m : SignedBody)
    (t : Turn Unit σ) :
    (Followable ctx kind m t ∧
      (exec (onCertified ctx kind m) t).2 = followed ctx kind m.justify t) ∨
    (¬ Followable ctx kind m t ∧ (exec (onCertified ctx kind m) t).2 = t) := by
  rw [onCertified, exec_bind, exec_state]
  simp only [exec_ite]
  split
  · next hother => exact .inr ⟨fun h => hother h.1, exec_pure _ _ ▸ rfl⟩
  · next hview =>
    split
    · next hpast => exact .inr ⟨fun h => Nat.not_le.2 h.2.1 hpast, exec_pure _ _ ▸ rfl⟩
    · next hrank =>
      rw [exec_bind, exec_lift]
      cases hcheck : checkCertified ctx t.state kind m with
      | error fault =>
        refine .inr ⟨fun h => ?_, rfl⟩
        have hok := h.2.2
        rw [hcheck] at hok
        cases hok
      | ok _ =>
        refine .inl ⟨⟨Decidable.not_not.1 hview, Nat.not_le.1 hrank, hcheck⟩, ?_⟩
        simp only [exec_bind, exec_resetTimer]
        unfold followed
        split
        · simp [exec_bind, exec_sendVote]
        · simp [exec_bind, exec_sendVote]
        · simp [exec_bind]

theorem moves_onCertified {kind : MessageKind} {m : SignedBody}
    (hkind : kind = .preCommit ∨ kind = .commit ∨ kind = .decide) (hm : ⟨kind, m⟩ ∈ l.heard) :
    Moves ctx (l.after t) (l.after (exec (onCertified ctx kind m) t).2) := by
  rcases exec_onCertified ctx kind m t with ⟨⟨hview, hrank, hcheck⟩, hexec⟩ | ⟨-, hexec⟩
  · rw [hexec]
    rcases hkind with rfl | rfl | rfl
    · exact Moves.of_move (.followPreCommit hm hview hrank hcheck)
        (by simp [followed, Life.after, Life.turn])
    · exact Moves.of_move (.followCommit hm hview hrank hcheck)
        (by simp [followed, Life.after, Life.turn])
    · exact Moves.of_move (.followDecide hm hview hrank hcheck)
        (by simp [followed, Life.after, Life.turn])
  · rw [hexec]

theorem subject_of_certificate {s : State} {payload : Payload} {qc : Certificate}
    (h : certificate? ctx s payload = .ok (some qc)) :
    qc.subject = ⟨s.phase, s.view, payload, Digest.zero⟩ := by
  unfold certificate? at h
  simp only at h
  split at h
  · cases h
  · split at h
    · cases h
    · cases h
      simp

theorem moves_certify {proposal : Body} {qc : Certificate} (htimely : (l.after t).Timely)
    (hleads : ctx.leads t.state.view) (hproposal : t.state.proposal = some proposal)
    (hqc : certificate? ctx t.state proposal.payload = .ok (some qc)) :
    Moves ctx (l.after t) (l.after (exec (certify ctx t.state.view proposal.payload qc) { t with
      state := { t.state with votes := t.state.votes.removeView t.state.view }
      effects := t.effects ++ [.certified qc] ++ [.resetTimer] }).2) := by
  have hsubject := subject_of_certificate hqc
  have hphase : qc.phase = t.state.phase := by rw [Certificate.phase, hsubject]
  unfold certify
  split
  · next hprepare =>
    refine Moves.of_move (.certifyPrepare hleads hproposal hqc (hphase ▸ hprepare)) ?_
    rw [exec_bind, exec_update]
    dsimp only
    rw [exec_announce]
    simp [Life.after, Life.turn]
  · next hpreCommit =>
    refine Moves.of_move (.certifyPreCommit hleads hproposal hqc (hphase ▸ hpreCommit)) ?_
    rw [exec_bind, exec_update]
    dsimp only
    rw [exec_announce]
    simp [Life.after, Life.turn]
  · next hcommit =>
    have hcommit : t.state.phase = .commit := hphase ▸ hcommit
    simp only [exec_bind, exec_update, exec_write]
    cases hbuild : ctx.build .decide (Body.plain t.state.view .decide proposal.payload qc) with
    | error fault =>
      exact Moves.of_move (.certifyUnsigned hleads hproposal hqc hcommit)
        (by simp [Life.after, Life.turn])
    | ok letter =>
      have hdecide := Move.certifyCommit (l := l.after t) hleads hproposal hqc hcommit
        (Context.wrote_of_build hbuild)
      refine ReflTransGen.head hdecide ?_
      simp only [exec_broadcast, exec_deliver, exec_lift, nextView]
      cases hnext : t.state.view.next? with
      | none => exact Moves.of_eq (by simp [Life.after, Life.turn])
      | some next =>
        have hadvance : Moves ctx (l.after { t with
          state := { t.state with
            votes := t.state.votes.removeView t.state.view
            phase := .decide
            decided := t.state.decided + 1 }
          app := ctx.application.deliver t.app t.state.view proposal.payload
          effects := t.effects ++ [.certified qc, .resetTimer, .wrote letter, .broadcast letter,
            .deliver t.state.view proposal.payload] }) _ :=
          moves_advanceTo hnext (by simpa [Life.after, Life.turn] using hdecide.timely htimely)
        simpa [Life.after, Life.turn] using hadvance
  · next hprepare hpreCommit hcommit =>
    refine Moves.of_move (.certifyIdle hleads hproposal hqc ?_) (by simp [Life.after, Life.turn])
    change t.state.phase ∉ _
    rw [← hphase]
    simpa using ⟨hprepare, hpreCommit, hcommit⟩

theorem moves_onVote {m : SignedBody} (htimely : (l.after t).Timely) (hm : ⟨.vote, m⟩ ∈ l.heard) :
    Moves ctx (l.after t) (l.after (exec (onVote ctx m) t).2) := by
  rw [onVote, exec_bind, exec_state]
  simp only [exec_ite]
  split
  · exact .refl
  · next hturn =>
    simp only [Bool.or_eq_true, Bool.not_eq_eq_eq_not, Bool.not_true, decide_eq_true_eq, not_or,
      Bool.not_eq_false, Decidable.not_not, ne_eq] at hturn
    obtain ⟨⟨hleads, hview⟩, hphase⟩ := hturn
    cases hproposal : t.state.proposal with
    | none => exact .refl
    | some proposal =>
      simp only [exec_ite]
      split
      · exact .refl
      · next hlog =>
        simp only [Bool.or_eq_true, Bool.not_eq_eq_eq_not, Bool.not_true, decide_eq_true_eq,
          not_or, Decidable.not_not, ne_eq] at hlog
        -- The vote is logged, whatever the count then comes to.
        refine ReflTransGen.head (.log hm hleads hview hphase hproposal hlog.1) ?_
        rw [exec_bind, exec_update]
        dsimp only
        rw [exec_bind, exec_state]
        dsimp only
        rw [exec_bind, exec_lift]
        rcases hqc : certificate? ctx { t.state with votes := t.state.votes.insert m }
            proposal.payload with fault | _ | qc
        · exact Moves.of_eq (by simp [Life.after, Life.turn])
        · exact Moves.of_eq (by simp [Life.after, Life.turn])
        · have hcertify : Moves ctx (l.after { t with
            state := { t.state with votes := t.state.votes.insert m } }) _ :=
            moves_certify htimely hleads hproposal hqc
          dsimp only
          rw [exec_bind, exec_ask]
          dsimp only
          rw [exec_bind, exec_update]
          dsimp only
          rw [exec_bind, exec_resetTimer]
          simpa [Life.after, Life.turn] using hcertify

end Handlers

section Runs

variable {ctx : Context σ} {l l' : Life Unit σ}

theorem Move.begun (h : Move ctx l l') (hbegun : l.state.status ≠ .init) :
    l'.state.status ≠ .init := by
  cases h <;> simp_all [Life.after, Life.turn, State.resetRound]

theorem Move.prompt (h : Move ctx l l')
    (hprompt : ∀ view receiver letter, Effect.postpone view (.send receiver letter) ∉ l.done) :
    ∀ view receiver letter, Effect.postpone view (.send receiver letter) ∉ l'.done := by
  cases h <;> simp_all [Life.after, Life.turn, ballot, Context.mem_posted, Context.mem_announced]

theorem moves_told (input : Input) : Moves ctx l (Life.told (v := .basic) ctx l input) := by
  rcases Life.told_cases (v := .basic) ctx l input with htold | ⟨letter, hgenuine, htold⟩
  · exact .of_eq htold.symm
  · exact .of_move (.hear hgenuine) htold

theorem moves_dispatch {t : Turn Unit σ} {kind : MessageKind} {m : SignedBody}
    (htimely : (l.after t).Timely) (hm : ⟨kind, m⟩ ∈ l.heard) :
    Moves ctx (l.after t) (l.after (exec (Machine.dispatch (v := .basic) ctx kind m) t).2) := by
  cases kind with
  | newView => exact moves_onNewView hm
  | vote => exact moves_onVote htimely hm
  | prepare => exact moves_onPrepare hm
  | preCommit => exact moves_onCertified (by simp) hm
  | commit => exact moves_onCertified (by simp) hm
  | decide => exact moves_onCertified (by simp) hm
  | generic => exact .refl

/-- Before it begins, the core is in the phase `newView` and has signed nothing in its view. It has
signed nothing for a later view and postponed no message. -/
structure Tidy (l : Life Unit σ) : Prop where
  fresh : l.state.status = .init → l.state.phase = .newView ∧ l.Blank
  timely : l.Timely
  prompt : ∀ view receiver letter, Effect.postpone view (.send receiver letter) ∉ l.done

theorem moves_began (hfresh : l.state.phase = .newView) (hblank : l.Blank) :
    Moves ctx (l.after { l.turn with
        state := State.resetRound { l.state with status := .running }
        effects := [.resetTimer] })
      (l.after (exec (openRound ctx) { l.turn with
        state := State.resetRound { l.state with status := .running }
        effects := [.resetTimer] }).2) :=
  moves_openRound hfresh fun x hx => hblank x (by simpa [List.filterMap_cons] using hx)

theorem moves_of_reaction {l l' : Life (Memory .basic) σ} {input : Input} (htidy : Tidy l)
    (hpermits : l.Permits input) (h : l.Reaction ctx input l') : Moves ctx l l' := by
  cases h with
  | ignored => exact moves_told input
  | stopped => exact .single .stop
  | began hinit =>
    obtain ⟨hphase, hblank⟩ := htidy.fresh hinit
    exact ReflTransGen.head (.begin hinit hphase) (moves_began hphase hblank)
  | @read envelope m hrunning hreceive =>
    have hm : ⟨envelope.kind, m⟩ ∈ (l.told ctx (.feed envelope)).heard := by
      simp [Life.told, Context.heard, hreceive]
    have hsame : (l.told ctx (.feed envelope)).after l.turn = l.told ctx (.feed envelope) :=
      Life.after_turn _
    have htimely : (l.told ctx (.feed envelope)).Timely := htidy.timely
    have hdispatch : Moves ctx ((l.told ctx (.feed envelope)).after l.turn) _ :=
      moves_dispatch htimely.after_turn hm
    exact (moves_told _).trans (hsame ▸ hdispatch)
  | advanced hrunning hnext =>
    have hsame : Life.after l l.turn = l := Life.after_turn _
    have hadvance : Moves ctx (Life.after l l.turn) _ :=
      moves_advanceTo hnext htidy.timely.after_turn
    exact (Moves.of_eq hsame.symm).trans hadvance
  | sent => exact absurd hpermits (htidy.prompt _ _ _)

theorem Moves.begun (h : Moves ctx l l') (hbegun : l.state.status ≠ .init) :
    l'.state.status ≠ .init := by
  induction h with
  | refl => exact hbegun
  | tail _ hmove ih => exact hmove.begun ih

theorem Moves.prompt (h : Moves ctx l l')
    (hprompt : ∀ view receiver letter, Effect.postpone view (.send receiver letter) ∉ l.done) :
    ∀ view receiver letter, Effect.postpone view (.send receiver letter) ∉ l'.done := by
  induction h with
  | refl => exact hprompt
  | tail _ hmove ih => exact hmove.prompt ih

theorem Moves.timely (h : Moves ctx l l') (htimely : l.Timely) : l'.Timely := by
  induction h with
  | refl => exact htimely
  | tail _ hmove ih => exact hmove.timely ih

theorem tidy_initial (scheme : Crypto.Scheme) (app : σ) :
    Tidy (Life.initial scheme .basic app) := by
  have hblank : ∀ x ∈ (Life.initial scheme .basic app).written, False := by simp
  exact ⟨fun _ => ⟨rfl, fun x hx => (hblank x hx).elim⟩, fun x hx => (hblank x hx).elim,
    by simp [Life.initial]⟩

theorem Tidy.reaction {l l' : Life (Memory .basic) σ} {input : Input} (htidy : Tidy l)
    (hpermits : l.Permits input) (h : l.Reaction ctx input l') : Tidy l' := by
  have hmoves := moves_of_reaction htidy hpermits h
  refine ⟨fun hinit => ?_, hmoves.timely htidy.timely, hmoves.prompt htidy.prompt⟩
  cases h with
  | ignored => exact htidy.fresh hinit
  | stopped => cases hinit
  | began hbegin =>
    obtain ⟨hphase, hblank⟩ := htidy.fresh hbegin
    have hopen : Moves ctx (Life.after l _) _ := moves_began hphase hblank
    exact absurd hinit (hopen.begun (by simp [Life.after, State.resetRound]))
  | read hrunning => exact absurd hinit (hmoves.begun (by simp [hrunning]))
  | advanced hrunning => exact absurd hinit (hmoves.begun (by simp [hrunning]))
  | sent hrunning => exact absurd hinit (hmoves.begun (by simp [hrunning]))

/-- The lives that moves lead to from the initial state. -/
inductive Reached (ctx : Context σ) : Life Unit σ → Prop
  | born (app : σ) : Reached ctx (Life.initial ctx.scheme .basic app)
  | move {l l' : Life Unit σ} : Reached ctx l → Move ctx l l' → Reached ctx l'

theorem Reached.moves (h : Reached ctx l) (hmoves : Moves ctx l l') : Reached ctx l' := by
  induction hmoves with
  | refl => exact h
  | tail _ hmove ih => exact ih.move hmove

/-- Every life of a core is reached by moves. -/
theorem reached_of_lived {l : Life (Memory .basic) σ} (h : Lived ctx l) :
    Tidy l ∧ Reached ctx l := by
  induction h with
  | born app => exact ⟨tidy_initial _ app, .born app⟩
  | @take l input _ hpermits ih =>
    obtain ⟨htidy, hreached⟩ := ih
    have hreaction : l.Reaction ctx input _ := Life.reaction_step input
    have htidy' := htidy.reaction hpermits hreaction
    exact ⟨⟨htidy'.fresh, htidy'.timely, htidy'.prompt⟩,
      (hreached.moves (moves_of_reaction htidy hpermits hreaction)).move .note⟩
  | retouch app _ ih => exact ⟨⟨ih.1.fresh, ih.1.timely, ih.1.prompt⟩, ih.2.move .retouch⟩

theorem moves_of_lived {l : Life (Memory .basic) σ} (h : Lived ctx l) {input : Input}
    (hpermits : l.Permits input) :
    Reached ctx l ∧ Moves ctx l ((l.told ctx input).changed (l.machine.step ctx input)) :=
  ⟨(reached_of_lived h).2, moves_of_reaction (reached_of_lived h).1 hpermits (Life.reaction_step _)⟩

end Runs

end Concord.Core.Basic
