import Concord.Core.HighCertificate
import Concord.Core.Turn

/-!
The chained protocol. Every view has one node, whose certificate certifies the node before it; a
vote goes to the leader of the next view. Three certified links in a row, each to the direct
parent, make the oldest node of the chain final:

    b <- b0 <- b1 <- b2

With b2 its certificate becomes the high one, that of b1 the lock, and b is delivered.
-/

namespace Concord.Core

open Crypto

structure Chain where
  tree : NodeTree
  leaf : Digest
  high : Certificate
  lastDecided : Option View
deriving DecidableEq

def Chain.initial (scheme : Scheme) : Chain :=
  let tree := NodeTree.initial scheme
  ⟨tree, tree.genesisId, initialHigh tree.genesisId, none⟩

namespace Chained

variable {σ : Type}

open Handler

/-- The node named by the certificate of `node`, if it is also the parent of `node`. -/
def directParent? (tree : NodeTree) (node : Body) : Option Body :=
  match tree.get? node.justify.nodeId with
  | some parent => if node.parentId = parent.id then some parent else none
  | none => none

/-- Delivers a node, unless it is the root or of no later view than the last delivery. -/
def commit (ctx : Context σ) (node : Body) : Handler Chain σ Unit := do
  let chain ← memory
  if node.id = chain.tree.genesisId then
    return
  if chain.lastDecided.any fun decided => node.view ≤ decided then
    return
  setMemory { chain with lastDecided := some node.view, tree := chain.tree.pruneBelow node.view }
  deliver ctx node.view node.payload

/-- Follows the direct links from an accepted node. The first may raise the high certificate, the
second may set the lock, and the third may deliver a node. -/
def walk (ctx : Context σ) (b2 : Body) : Handler Chain σ Unit := do
  let chain ← memory
  match directParent? chain.tree b2 with
  | none => return
  | some b1 =>
    if supersedes chain.high b2.justify then
      setMemory { chain with high := b2.justify }
      update fun s => { s with prepared := some b2.justify }
    match directParent? chain.tree b1 with
    | none => return
    | some b0 =>
      update fun s => s.lock b1.justify
      match directParent? chain.tree b0 with
      | none => return
      | some b => commit ctx b

def voteBody (node : Body) : Body :=
  (Body.plain node.view .generic node.payload Certificate.genesis).withParent node.id

/-- Stores an accepted node, postpones the vote for it, and follows its direct links. -/
def adopt (ctx : Context σ) (node : Body) : Handler Chain σ Unit := do
  let chain ← memory
  setMemory { chain with tree := chain.tree.insert node, leaf := node.id }
  let nextLeader := ctx.leader (← lift (nextView node.view))
  if nextLeader.key ≠ ctx.me then
    let letter ← write ctx .vote (voteBody node)
    postpone (.send nextLeader letter)
  walk ctx node

/-- Proposes a node for the current view on top of the certified node, or of the leaf if the
certified node is unknown. Skipped views are bridged first. -/
def propose (ctx : Context σ) : Handler Chain σ Unit := do
  let s ← state
  if !ctx.leads s.view || s.proposal.isSome then
    return
  let chain ← memory
  let start := if chain.tree.contains chain.high.nodeId then chain.high.nodeId else chain.leaf
  let (tree, parentId) ← lift (chain.tree.backfill ctx.scheme start s.view)
  setMemory { chain with tree := tree }
  let data ← produce ctx
  let payload : Payload := ⟨chain.high.payload.hash ctx.scheme, data⟩
  let body := (Body.plain s.view .generic payload chain.high).withParent parentId
  let node := body.sealId ctx.scheme
  let letter ← write ctx .generic node
  update fun s => { s with proposal := some node, phase := .generic }
  resetTimer
  broadcast letter
  adopt ctx node

def newViewBody (s : State) (chain : Chain) : Body :=
  (Body.plain s.view .newView chain.high.payload chain.high).withParent chain.leaf

/-- Takes over the certificate from a quorum of NewViews, if this member leads the view and has not
proposed in it. A certificate that names no node is taken to be for its sender's leaf. -/
def takeNewViews (ctx : Context σ) : Handler Chain σ Bool := do
  let s ← state
  if !ctx.leads s.view || s.proposal.isSome then
    return false
  match ← takeHighCertificate ctx with
  | none => return false
  | some (qc, leaf) =>
    let qc := if qc.nodeId.isZero && !leaf.isZero then qc.withNode leaf else qc
    let chain ← memory
    let high := raise chain.high qc
    setMemory { chain with high := high }
    update fun s => { s with prepared := some high }
    return true

def openRound (ctx : Context σ) : Handler Chain σ Unit := do
  let s ← state
  if ctx.leads s.view then
    if ← takeNewViews ctx then
      propose ctx
  else
    let letter ← write ctx .newView (newViewBody s (← memory))
    send ctx (ctx.leader s.view) letter

def onNewView (ctx : Context σ) (m : SignedBody) : Handler Chain σ Unit := do
  if ← acceptNewView ctx m then
    if ← takeNewViews ctx then
      propose ctx

def enterView (view : View) : Handler Chain σ Unit := do
  if view ≤ (← state).view then
    return
  update fun s => State.resetRound { s with view := view }
  resetTimer

def votesFor (ctx : Context σ) (s : State) (view : View) (nodeId : Digest) (payload : Payload) :
    Option (List Vote) :=
  let votes := (s.votes.matching view .generic fun m =>
    m.body.parentId = nodeId && m.body.payload = payload).map SignedBody.vote
  if ctx.committee.isQuorum votes.length then some votes else none

def onVote (ctx : Context σ) (m : SignedBody) : Handler Chain σ Unit := do
  let s ← state
  if m.phase ≠ .generic || m.view < s.view then
    return
  if !s.inWindow m.view then
    throw (.viewOutOfRange (.vote m.view m.signer s.view))
  let next ← lift (nextView m.view)
  if !ctx.leads next || !s.votes.accepts m then
    return
  let nodeId := m.body.parentId
  let payload := m.body.payload
  update fun s => { s with votes := s.votes.insert m }
  match votesFor ctx (← state) m.view nodeId payload with
  | none => return
  | some votes =>
    let chain ← memory
    if !chain.tree.contains nodeId then
      return
    let own ← lift (ctx.ownVote payload)
    let qc := (Certificate.ofVotes ⟨.generic, m.view, payload, nodeId⟩ votes).addVote own
    ask (.certified qc)
    let high := raise chain.high qc
    setMemory { chain with high := high }
    update fun s => { s with prepared := some high }
    enterView next
    propose ctx

def checkNodeId (ctx : Context σ) (node : Body) : Except Fault Unit :=
  if node.computeId ctx.scheme = node.id then .ok ()
  else .error (.safetyViolation (.nodeId node.view))

/-- Where the parent of `node` is unknown, computes the dummies for the skipped views, and stores
them if they end at that parent. -/
def bridge (ctx : Context σ) (node : Body) : Handler Chain σ Unit := do
  let chain ← memory
  if chain.tree.contains node.parentId then
    return
  let dummies ← lift (chain.tree.dummyChain ctx.scheme node.justify.nodeId node.view)
  if dummies.getLast?.any fun last => last.id = node.parentId then
    setMemory { chain with tree := chain.tree.insertAll dummies }

def onGeneric (ctx : Context σ) (m : SignedBody) : Handler Chain σ Unit := do
  let s ← state
  let node := m.body
  if m.view < s.view then
    return
  if m.view = s.view && s.proposal.isSome then
    return
  lift (ctx.screenProposal m)
  lift (checkNodeId ctx node)
  bridge ctx node
  let tree := (← memory).tree
  lift (ctx.checkProposal s (← get).app m fun lock => tree.extends? node.parentId lock.nodeId)
  if s.view < m.view then
    update fun s => State.resetRound { s with view := m.view }
  update fun s => { s with phase := .generic, proposal := some node }
  resetTimer
  adopt ctx node

def onProposal (ctx : Context σ) (kind : MessageKind) (m : SignedBody) : Handler Chain σ Unit :=
  match kind with
  | .generic => onGeneric ctx m
  | _ => throw (.protocolMismatch (.unhandled .chained kind))

def protocol (ctx : Context σ) : Protocol Chain σ where
  openRound := openRound ctx
  onNewView := onNewView ctx
  onVote := onVote ctx
  onProposal := onProposal ctx

end Chained

end Concord.Core
