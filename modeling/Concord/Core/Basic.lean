import Concord.Core.Turn

/-!
The five-phase protocol. The members send NewViews to a view's leader, who then goes through
Prepare, PreCommit, Commit and Decide; the votes of each phase make the certificate that opens the
next. All that it remembers is in the shared state.
-/

namespace Concord.Core.Basic

variable {σ : Type}

open Handler

def rank : Phase → Nat
  | .newView | .generic => 0
  | .prepare => 1
  | .preCommit => 2
  | .commit => 3
  | .decide => 4

/-- Proposes in the current view, if this member leads it, has not proposed and has a quorum of
NewViews. -/
def tryLead (ctx : Context σ) : Handler Unit σ Unit := do
  let s ← state
  if !ctx.leads s.view || s.phase ≠ .newView then
    return
  match ← takeHighCertificate ctx with
  | none => return
  | some (high, _) =>
    let data ← produce ctx
    let body := Body.plain s.view .prepare ⟨high.payload.hash ctx.scheme, data⟩ high
    let letter ← write ctx .prepare body
    update fun s => { s with proposal := some body, phase := .prepare }
    resetTimer
    broadcast letter

def sendVote (ctx : Context σ) (view : View) (phase : Phase) (payload : Payload) :
    Handler Unit σ Unit := do
  let letter ← write ctx .vote (Body.plain view phase payload Certificate.genesis)
  send ctx (ctx.leader view) letter

def newViewBody (s : State) : Body :=
  let high := s.highCertificate
  Body.plain s.view .newView high.payload high

def openRound (ctx : Context σ) : Handler Unit σ Unit := do
  let s ← state
  if ctx.leads s.view then
    tryLead ctx
  else
    let letter ← write ctx .newView (newViewBody s)
    send ctx (ctx.leader s.view) letter

def onNewView (ctx : Context σ) (m : SignedBody) : Handler Unit σ Unit := do
  if ← acceptNewView ctx m then
    tryLead ctx

/-- A proposal extends a lock if its parent is the payload of its certificate or of the lock. -/
def extendsLock (ctx : Context σ) (m : SignedBody) (lock : Certificate) : Bool :=
  let parent := m.body.payload.parent
  m.justify.payload.hash ctx.scheme = parent || lock.payload.hash ctx.scheme = parent

def onPrepare (ctx : Context σ) (m : SignedBody) : Handler Unit σ Unit := do
  let s ← state
  if m.view < s.view then
    return
  if m.view = s.view && s.phase ≠ .newView then
    return
  lift (ctx.checkProposal s (← get).app m (extendsLock ctx m))
  if s.view < m.view then
    update fun s => State.resetRound { s with view := m.view }
  update fun s => { s with proposal := some m.body, phase := .prepare }
  resetTimer
  sendVote ctx m.view .prepare m.body.payload

def certifiedPhase : MessageKind → Phase
  | .preCommit => .prepare
  | .commit => .preCommit
  | _ => .commit

/-- The checks of a PreCommit, Commit or Decide. -/
def checkCertified (ctx : Context σ) (s : State) (kind : MessageKind) (m : SignedBody) :
    Except Fault Unit :=
  let leader := ctx.leader s.view
  let justify := m.justify
  let wanted := certifiedPhase kind
  if leader.key ≠ m.signer then
    .error (.safetyViolation (.phaseSender kind s.view m.signer leader.key))
  else if justify.phase ≠ wanted || justify.view ≠ s.view then
    .error (.safetyViolation (.wrongCertificate kind justify.phase justify.view wanted s.view))
  else if s.proposal.any fun proposal => justify.payload ≠ proposal.payload then
    .error (.safetyViolation (.otherPayload kind s.view))
  else if !ctx.verifyCertificate justify then
    .error (.safetyViolation (.certificateWithoutQuorum kind s.view))
  else .ok ()

def onCertified (ctx : Context σ) (kind : MessageKind) (m : SignedBody) : Handler Unit σ Unit := do
  let s ← state
  if m.view ≠ s.view then
    return
  if rank m.phase ≤ rank s.phase then
    return
  lift (checkCertified ctx s kind m)
  let qc := m.justify
  resetTimer
  match kind with
  | .preCommit =>
    update fun s => { s with prepared := some qc, phase := .preCommit }
    sendVote ctx s.view .preCommit qc.payload
  | .commit =>
    update fun s => { s.lock qc with phase := .commit }
    sendVote ctx s.view .commit qc.payload
  | _ =>
    update fun s => { s with phase := .decide }
    deliver ctx s.view qc.payload
    postpone .nextRound

/-- The certificate of the current phase, if the logged votes for `payload` make a quorum. -/
def certificate? (ctx : Context σ) (s : State) (payload : Payload) :
    Except Fault (Option Certificate) :=
  let votes := (s.votes.matching s.view s.phase fun m => m.body.payload = payload).map
    SignedBody.vote
  if !ctx.committee.isQuorum votes.length then .ok none
  else match ctx.ownVote payload with
    | .error fault => .error fault
    | .ok own =>
      .ok (some ((Certificate.ofVotes ⟨s.phase, s.view, payload, Digest.zero⟩ votes).addVote own))

def certify (ctx : Context σ) (view : View) (payload : Payload) (qc : Certificate) :
    Handler Unit σ Unit := do
  match qc.phase with
  | .prepare =>
    update fun s => { s with prepared := some qc, phase := .preCommit }
    broadcast (← write ctx .preCommit (Body.plain view .preCommit payload qc))
  | .preCommit =>
    update fun s => { s.lock qc with phase := .commit }
    broadcast (← write ctx .commit (Body.plain view .commit payload qc))
  | .commit =>
    update fun s => { s with phase := .decide }
    broadcast (← write ctx .decide (Body.plain view .decide payload qc))
    deliver ctx view payload
    advanceTo (openRound ctx) (← lift (nextView view))
  | _ => return

def onVote (ctx : Context σ) (m : SignedBody) : Handler Unit σ Unit := do
  let s ← state
  if !ctx.leads s.view || m.view ≠ s.view || m.phase ≠ s.phase then
    return
  match s.proposal with
  | none => return
  | some proposal =>
    if m.body.payload ≠ proposal.payload || !s.votes.accepts m then
      return
    update fun s => { s with votes := s.votes.insert m }
    match ← lift (certificate? ctx (← state) proposal.payload) with
    | none => return
    | some qc =>
      ask (.certified qc)
      update fun s => { s with votes := s.votes.removeView s.view }
      resetTimer
      certify ctx s.view proposal.payload qc

def onProposal (ctx : Context σ) (kind : MessageKind) (m : SignedBody) : Handler Unit σ Unit :=
  match kind with
  | .prepare => onPrepare ctx m
  | .preCommit | .commit | .decide => onCertified ctx kind m
  | _ => throw (.protocolMismatch (.unhandled .basic kind))

def protocol (ctx : Context σ) : Protocol Unit σ where
  openRound := openRound ctx
  onNewView := onNewView ctx
  onVote := onVote ctx
  onProposal := onProposal ctx

end Concord.Core.Basic
