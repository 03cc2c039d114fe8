import Concord.Proofs.Chained.Cluster
import Concord.Proofs.Chained.Order
import Concord.Proofs.Chained.Reports

/-!
A node and a quorum of votes for it at the leader of the next view. Votes are logged whether or not
the node is known, but only a vote causes the log to be counted. So the leader makes a certificate
unless the node arrives last.
-/

namespace Concord.Core

variable {σ : Type}

namespace MessageLog

variable {log : MessageLog} {m : SignedBody} {view : View}

theorem Indexed.accepts (h : log.Indexed) (hview : m.view = view)
    (hnew : m.signer ∉ (log.forView view).map SignedBody.signer) : log.accepts m := by
  suffices hseen : LogKey.of m ∉ log.seen by simpa [MessageLog.accepts] using hseen
  rw [h.seen_iff]
  intro hkey
  obtain ⟨x, hx, hsame⟩ := List.mem_map.1 hkey
  obtain ⟨hsigner, hxview, -⟩ := LogKey.mk.inj hsame
  exact hnew (List.mem_map.2 ⟨x, mem_forView.2 ⟨hx, hxview.trans hview⟩, hsigner⟩)

theorem forView_insert (h : log.accepts m) (hview : m.view = view) :
    (log.insert m).forView view = log.forView view ++ [m] := by
  simp [insert, h, forView, hview]

theorem forView_retainFrom {view' : View} (h : view' ≤ view) :
    (log.retainFrom view').forView view = log.forView view := by
  unfold retainFrom forView
  rw [List.filter_filter]
  refine List.filter_congr fun x _ => ?_
  by_cases hview : x.view = view
  · simp [hview, h]
  · simp [hview]

theorem matching_eq_filter (phase : Phase) (accept : SignedBody → Bool) :
    log.matching view phase accept =
      (log.forView view).filter fun x => x.phase = phase && accept x := by
  unfold matching forView
  rw [List.filter_filter]
  refine List.filter_congr fun x _ => ?_
  cases accept x <;> simp [Bool.and_comm]

end MessageLog

theorem Context.exists_letter {ctx : Context σ} (hsign : ctx.signer.sign?.isSome)
    (kind : MessageKind) (body : Body) : ∃ letter, ctx.build kind body = .ok letter := by
  cases hbuild : ctx.build kind body with
  | ok letter => exact ⟨letter, rfl⟩
  | error fault => exact absurd hbuild (build_ne_error hsign kind body fault)

theorem Context.exists_ownVote {ctx : Context σ} (hsign : ctx.signer.sign?.isSome)
    (payload : Payload) : ∃ own, ctx.ownVote payload = .ok own := by
  obtain ⟨sign, hsome⟩ := Option.isSome_iff_exists.1 hsign
  exact ⟨⟨ctx.me, sign (payload.hash ctx.scheme)⟩, by simp [ownVote, Crypto.Signer.sign, hsome]⟩

theorem State.inWindow_self {s : State} : s.inWindow s.view := by
  have hlt : s.view.toNat < UInt64.size := s.view.toNat_lt
  refine decide_eq_true (UInt64.le_iff_toNat_le.2 ?_)
  unfold View.plus
  split
  · next hfits =>
    rw [UInt64.toNat_ofNat_of_lt' hfits]
    exact Nat.le_add_right _ _
  · rw [View.toNat_last]
    exact Nat.le_sub_one_of_lt hlt

def Life.hear {v : Variant} (ctx : Context σ) (l : Life (Memory v) σ) (letters : List Letter) :
    Life (Memory v) σ :=
  letters.foldl (fun l x => l.take ctx (.feed x.envelope)) l

theorem Life.take_letter {v : Variant} {ctx : Context σ} {l : Life (Memory v) σ} {kind : MessageKind}
    {m : SignedBody} (hrunning : l.state.status = .running)
    (hread : ctx.receive (Letter.envelope ⟨kind, m⟩) = .ok m) :
    l.take ctx (.feed (Letter.envelope ⟨kind, m⟩)) =
      ((l.told ctx (.feed (Letter.envelope ⟨kind, m⟩))).after
        (Handler.exec (Machine.dispatch ctx kind m) l.turn).2).noted := by
  rw [Life.take, Life.changed_feed hrunning hread]
  rfl

namespace Chained

open Handler Relation

variable {ctx : Context σ} {l : Life (Memory .chained) σ} {s : State} {t : Turn Chain σ}
  {next : View} {node : Body} {b : SignedBody} {ms : List SignedBody}

section Counting

/-- A vote for `node` that passes all stateless checks. -/
structure Ballot (ctx : Context σ) (node : Body) (b : SignedBody) : Prop where
  read : ctx.receive (Letter.envelope ⟨.vote, b⟩) = .ok b
  view : b.view = node.view
  phase : b.phase = .generic
  nodeId : b.body.parentId = node.id
  payload : b.body.payload = node.payload

/-- A quorum of votes for `node` by different members. -/
structure Poll (ctx : Context σ) (node : Body) (bs : List SignedBody) : Prop where
  ballots : ∀ b ∈ bs, Ballot ctx node b
  distinct : (bs.map SignedBody.signer).Nodup
  size : bs.length = quorumThreshold ctx.committee.size

theorem Poll.perm {bs bs' : List SignedBody} (h : Poll ctx node bs) (hperm : bs'.Perm bs) :
    Poll ctx node bs' where
  ballots b hb := h.ballots b (hperm.subset hb)
  distinct := (hperm.map _).nodup_iff.2 h.distinct
  size := hperm.length_eq.trans h.size

theorem Poll.fresh {rest : List SignedBody} (h : Poll ctx node (ms ++ b :: rest)) :
    b.signer ∉ ms.map SignedBody.signer := by
  have hdistinct := h.distinct
  rw [List.map_append, List.map_cons, List.nodup_append] at hdistinct
  exact fun hmem => hdistinct.2.2 _ hmem _ List.mem_cons_self rfl

theorem Poll.isQuorum_eq {rest : List SignedBody} (h : Poll ctx node (ms ++ b :: rest)) :
    ctx.committee.isQuorum (ms ++ [b]).length = rest.isEmpty := by
  have hsize := h.size
  simp only [List.length_append, List.length_cons] at hsize
  cases rest with
  | nil => exact decide_eq_true (by simp [← hsize])
  | cons x rest =>
    refine decide_eq_false ?_
    simp only [List.length_append, List.length_cons, List.length_nil] at hsize ⊢
    omega

/-- The running core has not passed the view of `node`, and its votes logged for that view are `ms`,
all for `node`. -/
structure Polling (ctx : Context σ) (node : Body) (ms : List SignedBody) (s : State) : Prop where
  running : s.status = .running
  view_le : s.view ≤ node.view
  inWindow : s.inWindow node.view
  indexed : s.votes.Indexed
  logged : s.votes.forView node.view = ms
  ballots : ∀ m ∈ ms, Ballot ctx node m

theorem Polling.countable (h : Polling ctx node ms t.state) (hb : Ballot ctx node b)
    (hnew : b.signer ∉ ms.map SignedBody.signer) (hnext : node.view.next? = some next)
    (hleads : ctx.leads next) : Countable ctx b t next where
  phase := hb.phase
  view_le := hb.view ▸ h.view_le
  inWindow := hb.view ▸ h.inWindow
  next_eq := hb.view ▸ hnext
  leads := hleads
  fresh := h.indexed.accepts hb.view (h.logged ▸ hnew)

theorem Polling.votesFor_eq (h : Polling ctx node ms s) (hb : Ballot ctx node b) :
    votesFor ctx s b.view b.body.parentId b.body.payload =
      if ctx.committee.isQuorum ms.length then some (ms.map SignedBody.vote) else none := by
  have hall : ms.filter (fun x => x.phase = .generic &&
      (x.body.parentId = node.id && x.body.payload = node.payload)) = ms := by
    refine List.filter_eq_self.2 fun x hx => ?_
    obtain ⟨-, -, hphase, hid, hpayload⟩ := h.ballots x hx
    simp [hphase, hid, hpayload]
  unfold votesFor
  rw [hb.view, hb.nodeId, hb.payload, MessageLog.matching_eq_filter, h.logged, hall]
  simp only [List.length_map]

theorem Polling.vote (h : Polling ctx node ms s) (hb : Ballot ctx node b)
    (hnew : b.signer ∉ ms.map SignedBody.signer) :
    Polling ctx node (ms ++ [b]) { s with votes := s.votes.insert b } where
  running := h.running
  view_le := h.view_le
  inWindow := h.inWindow
  indexed := h.indexed.insert b
  logged := by
    have haccepts := h.indexed.accepts hb.view (h.logged ▸ hnew)
    exact (MessageLog.forView_insert haccepts hb.view).trans (congrArg (· ++ [b]) h.logged)
  ballots x hx := by
    rcases List.mem_append.1 hx with hx | hx
    · exact h.ballots x hx
    · exact List.mem_singleton.1 hx ▸ hb

theorem Polling.jump {s' : State} (h : Polling ctx node ms s) (hstatus : s'.status = s.status)
    (hview : s'.view = node.view) (hvotes : s'.votes = (s.jump node.view).votes) :
    Polling ctx node ms s' where
  running := hstatus.trans h.running
  view_le := hview ▸ UInt64.le_refl _
  inWindow := hview ▸ State.inWindow_self
  indexed := by
    rw [hvotes, State.jump]
    split
    · exact h.indexed.retainFrom _
    · exact h.indexed
  logged := by
    rw [hvotes, State.jump]
    split
    · exact (MessageLog.forView_retainFrom (UInt64.le_refl _)).trans h.logged
    · exact h.logged
  ballots := h.ballots

theorem take_countable (hrunning : l.state.status = .running) (hb : Ballot ctx node b)
    (hcount : Countable ctx b l.turn next) :
    Life.take ctx l (.feed (Letter.envelope ⟨.vote, b⟩)) =
      ((l.told ctx (.feed (Letter.envelope ⟨.vote, b⟩))).after
        (tally ctx b next (Chained.logged b l.turn)).2).noted := by
  have hdispatch : exec (Machine.dispatch (v := .chained) ctx .vote b) l.turn = _ := hcount.exec_eq
  rw [Life.take_letter hrunning hb.read, hdispatch]

theorem hear_ballots {P : List SignedBody → Turn Chain σ → Prop} {all bs : List SignedBody}
    (hall : ms ++ bs = all) (hstart : P ms l.turn)
    (hstep : ∀ {ms b rest} {l : Life (Memory .chained) σ}, ms ++ b :: rest = all → P ms l.turn →
      P (ms ++ [b]) (l.take ctx (.feed (Letter.envelope ⟨.vote, b⟩))).turn) :
    P all (l.hear ctx (bs.map (Letter.mk .vote))).turn := by
  induction bs generalizing ms l with
  | nil =>
    rw [List.append_nil] at hall
    exact hall ▸ hstart
  | cons b rest ih =>
    have hrest := ih (by simpa using hall) (hstep hall hstart)
    simpa [Life.hear] using hrest

end Counting

section Phases

variable {m : SignedBody} {tree : NodeTree}

/-- Any certificate for a node of `view` supersedes `held`. -/
def Outdone (view : View) (held : Certificate) : Prop :=
  held.view < view ∨ held.view = view ∧ held.phase = .newView

theorem supersedes_of_outdone {held offered : Certificate} (h : Outdone offered.view held)
    (hphase : offered.phase = .generic) : supersedes held offered := by
  rcases h with hlt | ⟨hview, hstart⟩
  · simp [supersedes, hlt]
  · have hne : offered ≠ held := by
      rintro rfl
      rw [hphase] at hstart
      cases hstart
    simp [supersedes, hview, hstart, hphase, hne]

/-- A certificate for the node supersedes the high certificate, and storing the node does not remove
it. -/
structure Prospective (m : SignedBody) (tree : NodeTree) (high : Certificate) : Prop where
  distinct : ∀ x ∈ tree.nodes, x.id = m.body.id → x = m.body
  above : ∀ b, Finality (· ∈ (tree.insert m.body).nodes) m.body b → b.view ≤ m.body.view
  high : Outdone m.body.view high
  justify : Outdone m.body.view m.justify

/-- The node of `m` is acceptable and not stored, and the votes `ms` for it are logged. -/
structure Expecting (ctx : Context σ) (m : SignedBody) (tree : NodeTree) (ms : List SignedBody)
    (t : Turn Chain σ) : Prop where
  polling : Polling ctx m.body ms t.state
  acceptable : Acceptable ctx m t tree
  unknown : t.memory.tree.contains m.body.id = false
  prospective : Prospective m tree t.memory.high

/-- The node is the stored proposal of the core's view, and the votes `ms` for it are logged. -/
structure Collecting (ctx : Context σ) (node : Body) (ms : List SignedBody) (t : Turn Chain σ) :
    Prop where
  polling : Polling ctx node ms t.state
  view : t.state.view = node.view
  proposal : t.state.proposal = some node
  stored : t.memory.tree.get? node.id = some node
  high : Outdone node.view t.memory.high

/-- The core is in the view `next`, made a certificate for `node`, and proposed a node on top of
`node` with this certificate. -/
structure Led (node : Body) (next : View) (l : Life Chain σ) : Prop where
  certified : .certified l.memory.high ∈ l.done
  subject : l.memory.high.subject = ⟨.generic, node.view, node.payload, node.id⟩
  view : l.state.view = next
  proposed : ∃ x, .broadcast x ∈ l.done ∧ x.kind = .generic ∧ l.state.proposal = some x.body ∧
    x.body.view = next ∧ x.body.parentId = node.id ∧ x.body.justify = l.memory.high

theorem backfill_next {scheme : Crypto.Scheme} {tree : NodeTree}
    (hnext : node.view.next? = some next) (hget : tree.get? node.id = some node) :
    tree.backfill scheme node.id next = .ok (tree, node.id) := by
  have hgap : next.gap node.view = 1 := by
    rw [View.gap, View.toNat_next hnext]
    omega
  have hnone : next.gap next = 0 := Nat.sub_self _
  have hnear : ¬ maxViewGap < 1 := by decide
  unfold NodeTree.backfill NodeTree.dummyChain
  rw [hget]
  dsimp only
  rw [hgap, if_neg hnear, View.plus_one hnext, hnone]
  rfl

theorem led_of_adopted {l l' : Life Chain σ} {own : Body} {letter : Letter}
    (h : Adopted ctx own (l.after t) l') (hwrote : ctx.Wrote .generic own letter)
    (hsubject : t.memory.high.subject = ⟨.generic, node.view, node.payload, node.id⟩)
    (hview : t.state.view = next) (hproposal : t.state.proposal = some own)
    (hown : own.view = next ∧ own.parentId = node.id ∧ own.justify = t.memory.high)
    (hcertified : .certified t.memory.high ∈ t.effects) (hsent : .broadcast letter ∈ t.effects) :
    Led node next l' := by
  obtain ⟨hownView, hparent, hjustify⟩ := hown
  have hhigh : l'.memory.high = t.memory.high := by
    rcases h.high with hsame | hraised
    · exact hsame
    · exact hraised.trans hjustify
  have hdone : t.effects ⊆ l'.done := by
    obtain ⟨es, hdone, -⟩ := h.asked
    rw [hdone]
    exact fun e he => List.mem_append_left _ (List.mem_append_right _ he)
  refine ⟨hhigh ▸ hdone hcertified, hhigh ▸ hsubject, h.steady.view.trans hview, letter, hdone hsent,
    hwrote.kind_eq, ?_, ?_, ?_, ?_⟩
  · rw [h.steady.proposal, hwrote.body_eq]
    exact hproposal
  · rw [hwrote.body_eq, hownView]
  · rw [hwrote.body_eq, hparent]
  · rw [hwrote.body_eq, hjustify, hhigh]

theorem Walk.mem_tree {l l' : Life Chain σ} {x : Body} (h : Walk ctx node l l')
    (hx : x ∈ l.memory.tree.nodes)
    (habove : ∀ b, Finality (· ∈ l.memory.tree.nodes) node b → b.view ≤ x.view) :
    x ∈ l'.memory.tree.nodes := by
  cases h with
  | loose => exact hx
  | one | two | stale => simpa [lockedBy] using hx
  | @final b1 b0 b h2 h1 h0 =>
    obtain ⟨hmem1, hdirect2⟩ := directParent?_spec h2
    obtain ⟨hmem0, hdirect1⟩ := directParent?_spec h1
    obtain ⟨hmem, hdirect0⟩ := directParent?_spec h0
    have hle := habove b ⟨⟨b1, b0, hmem1, hmem0, hdirect2, hdirect1, hdirect0⟩, hmem⟩
    refine List.mem_filter.2 ⟨?_, decide_eq_true hle⟩
    simpa [lockedBy] using hx

theorem Expecting.take_node {m : SignedBody} (h : Expecting ctx m tree ms l.turn)
    (hread : ctx.receive (Letter.envelope ⟨.generic, m⟩) = .ok m)
    (hnext : m.body.view.next? = some next) (hleads : ctx.leads next) :
    Collecting ctx m.body ms (l.take ctx (.feed (Letter.envelope ⟨.generic, m⟩))).turn := by
  have hexec : exec (Machine.dispatch (v := .chained) ctx .generic m) l.turn =
      exec (walk ctx m.body) (holding m.body (nominated m tree l.turn)) := by
    have hself : (ctx.leader next).key = ctx.me := by simpa [Context.leads] using hleads
    have honGeneric : exec (onGeneric ctx m) l.turn = _ := h.acceptable.exec_eq
    rw [exec_adopt, nextView, hnext] at honGeneric
    dsimp only at honGeneric
    rw [if_pos hself] at honGeneric
    exact honGeneric
  have hwalk := walk_exec ctx m.body (l.told ctx (.feed (Letter.envelope ⟨.generic, m⟩)))
    (holding m.body (nominated m tree l.turn))
  have hsteady := hwalk.steady
  have hhigh := hwalk.high_eq
  have hstored := hwalk.mem_tree ((NodeTree.mem_insert_iff h.prospective.distinct).2 (.inl rfl))
    h.prospective.above
  rw [Life.take_letter h.polling.running hread, hexec]
  have hview := hsteady.view.trans (State.jump_view h.acceptable.view_le)
  refine ⟨h.polling.jump (hsteady.status.trans (State.jump_status _ _)) hview hsteady.votes, hview,
    hsteady.proposal, NodeTree.get?_of_mem hstored, ?_⟩
  have hkept : Outdone m.body.view (holding m.body (nominated m tree l.turn)).memory.high :=
    h.prospective.high
  -- Whichever certificate is now the high one gives way to one for the node.
  refine hhigh.symm ▸ ?_
  split
  · rcases raise_cases (holding m.body (nominated m tree l.turn)).memory.high m.body.justify with
      hsame | hraised
    · exact hsame.symm ▸ hkept
    · exact hraised.symm ▸ h.prospective.justify
  · exact hkept

theorem Collecting.tally_eq (h : Collecting ctx node ms t) (hb : Ballot ctx node b)
    (hnew : b.signer ∉ ms.map SignedBody.signer)
    (hquorum : ctx.committee.isQuorum (ms ++ [b]).length) (hsign : ctx.signer.sign?.isSome) :
    ∃ qc : Certificate, qc.subject = ⟨.generic, node.view, node.payload, node.id⟩ ∧
      raise t.memory.high qc = qc ∧
      tally ctx b next (Chained.logged b t) =
        exec (propose ctx) (certified qc next (Chained.logged b t)) := by
  have hvotes : votesFor ctx (Chained.logged b t).state b.view b.body.parentId
    b.body.payload = _ := (h.polling.vote hb hnew).votesFor_eq hb
  rw [if_pos hquorum] at hvotes
  have hknown : (Chained.logged b t).memory.tree.contains b.body.parentId := by
    rw [hb.nodeId]
    exact Option.isSome_iff_exists.2 ⟨node, h.stored⟩
  obtain ⟨own, hown⟩ := Context.exists_ownVote hsign b.body.payload
  obtain ⟨qc, hqc⟩ : ∃ qc, completed b.view b.body.payload b.body.parentId
    ((ms ++ [b]).map SignedBody.vote) own = qc := ⟨_, rfl⟩
  have hsubject : qc.subject = ⟨.generic, node.view, node.payload, node.id⟩ := by
    rw [← hqc, ← hb.view, ← hb.payload, ← hb.nodeId]
    simp [completed]
  refine ⟨qc, hsubject, ?_, ?_⟩
  · have hview : qc.view = node.view := congrArg Subject.view hsubject
    have hphase : qc.phase = .generic := congrArg Subject.phase hsubject
    exact if_pos (supersedes_of_outdone (hview ▸ h.high) hphase)
  · rw [tally, hvotes]
    dsimp only
    rw [if_pos hknown, hown, ← hqc]

section Votes

variable (hnext : node.view.next? = some next) (hleads : ctx.leads next)

include hnext hleads

theorem led_of_propose {l : Life Chain σ}
    (hsubject : t.memory.high.subject = ⟨.generic, node.view, node.payload, node.id⟩)
    (hview : t.state.view = next) (hfree : t.state.proposal = none)
    (hstored : t.memory.tree.get? node.id = some node)
    (hcertified : .certified t.memory.high ∈ t.effects) (hsign : ctx.signer.sign?.isSome)
    (hproduce : ∀ app, ∃ data, (ctx.application.produce app).1 = .ok data) :
    Led node next (l.after (exec (propose ctx) t).2) := by
  have hid : t.memory.high.nodeId = node.id := congrArg Subject.nodeId hsubject
  have hbackfill : t.memory.tree.backfill ctx.scheme (seat t.memory) t.state.view =
      .ok (t.memory.tree, node.id) := by
    have hknown : t.memory.tree.contains t.memory.high.nodeId := by
      rw [hid]
      exact Option.isSome_iff_exists.2 ⟨node, hstored⟩
    rw [seat, if_pos hknown, hid, hview]
    exact backfill_next hnext hstored
  obtain ⟨data, hdata⟩ := hproduce t.app
  have hproduced : ctx.application.produce t.app = (.ok data, (ctx.application.produce t.app).2) :=
    Prod.ext hdata rfl
  obtain ⟨own, howned⟩ : ∃ own, Chained.proposal ctx t.state t.memory node.id data = own := ⟨_, rfl⟩
  obtain ⟨letter, hbuild⟩ := Context.exists_letter hsign .generic own
  have hproposable : Proposable ctx t t.memory.tree node.id data
      (ctx.application.produce t.app).2 letter :=
    ⟨hview ▸ hleads, hfree, hbackfill, hproduced, howned.symm ▸ hbuild⟩
  have hpropose := hproposable.exec_eq
  rw [howned] at hpropose
  rw [hpropose]
  have hadopted := (adopt_exec ctx own l
    (announcing t.memory.tree (ctx.application.produce t.app).2 own letter t)).spec
  exact led_of_adopted hadopted (Context.wrote_of_build hbuild) hsubject hview rfl
    ⟨howned ▸ hview, howned ▸ rfl, howned ▸ rfl⟩ (List.mem_append_left _ hcertified)
    (by simp [announcing])

theorem Expecting.take_ballot {m : SignedBody} (hnode : m.body = node)
    (h : Expecting ctx m tree ms l.turn) (hb : Ballot ctx node b)
    (hnew : b.signer ∉ ms.map SignedBody.signer) :
    Expecting ctx m tree (ms ++ [b]) (l.take ctx (.feed (Letter.envelope ⟨.vote, b⟩))).turn := by
  subst hnode
  have hcount := h.polling.countable hb hnew hnext hleads
  have htally : tally ctx b next (Chained.logged b l.turn) = (.ok (), Chained.logged b l.turn) := by
    have hunknown : (Chained.logged b l.turn).memory.tree.contains b.body.parentId = false :=
      hb.nodeId ▸ h.unknown
    unfold tally
    split
    · rfl
    · rw [hunknown]
      rfl
  rw [take_countable h.polling.running hb hcount, htally]
  exact ⟨h.polling.vote hb hnew, h.acceptable.of_votes, h.unknown, h.prospective⟩

theorem Collecting.take_ballot (h : Collecting ctx node ms l.turn) (hb : Ballot ctx node b)
    (hnew : b.signer ∉ ms.map SignedBody.signer)
    (hshort : ctx.committee.isQuorum (ms ++ [b]).length = false) :
    Collecting ctx node (ms ++ [b]) (l.take ctx (.feed (Letter.envelope ⟨.vote, b⟩))).turn := by
  have hcount := h.polling.countable hb hnew hnext hleads
  have hpolling := h.polling.vote hb hnew
  have htally : tally ctx b next (Chained.logged b l.turn) = (.ok (), Chained.logged b l.turn) := by
    have hvotes : votesFor ctx (Chained.logged b l.turn).state b.view b.body.parentId
      b.body.payload = _ := hpolling.votesFor_eq hb
    rw [tally, hvotes, hshort]
    rfl
  rw [take_countable h.polling.running hb hcount, htally]
  exact ⟨hpolling, h.view, h.proposal, h.stored, h.high⟩

theorem Collecting.led (h : Collecting ctx node ms l.turn) (hb : Ballot ctx node b)
    (hnew : b.signer ∉ ms.map SignedBody.signer)
    (hquorum : ctx.committee.isQuorum (ms ++ [b]).length) (hsign : ctx.signer.sign?.isSome)
    (hproduce : ∀ app, ∃ data, (ctx.application.produce app).1 = .ok data) :
    Led node next (Life.take ctx l (.feed (Letter.envelope ⟨.vote, b⟩))) := by
  have hcount := h.polling.countable hb hnew hnext hleads
  obtain ⟨qc, hsubject, hraise, htally⟩ := h.tally_eq hb hnew hquorum hsign
  have hhigh : (certified qc next (Chained.logged b l.turn)).memory.high = qc := hraise
  rw [take_countable h.polling.running hb hcount, htally]
  have hled := led_of_propose (t := certified qc next (Chained.logged b l.turn))
    (l := l.told ctx (.feed (Letter.envelope ⟨.vote, b⟩))) hnext hleads (by rw [hhigh, hsubject])
    rfl rfl h.stored (by rw [hhigh]; simp [certified]) hsign hproduce
  exact ⟨hled.certified, hled.subject, hled.view, hled.proposed⟩

/-- A collecting core that hears the remaining votes of a poll certifies the node and proposes on
top of it. -/
theorem Collecting.hear_poll {pre post : List SignedBody} (h : Collecting ctx node pre l.turn)
    (hpoll : Poll ctx node (pre ++ (post ++ [b]))) (hsign : ctx.signer.sign?.isSome)
    (hproduce : ∀ app, ∃ data, (ctx.application.produce app).1 = .ok data) :
    Led node next (l.hear ctx ((post ++ [b]).map (Letter.mk .vote))) := by
  have hcollecting : Collecting ctx node (pre ++ post)
      (l.hear ctx (post.map (Letter.mk .vote))).turn := by
    refine hear_ballots rfl h fun {ms c rest l} hall hcollecting => ?_
    have hsofar : Poll ctx node (ms ++ c :: (rest ++ [b])) := by
      rw [← List.append_assoc, ← hall] at hpoll
      simpa using hpoll
    exact hcollecting.take_ballot hnext hleads (hsofar.ballots c (by simp)) hsofar.fresh
      (hsofar.isQuorum_eq.trans (by simp))
  rw [← List.append_assoc] at hpoll
  have hled := hcollecting.led hnext hleads (hpoll.ballots b (by simp)) hpoll.fresh
    (hpoll.isQuorum_eq.trans rfl) hsign hproduce
  simpa [Life.hear] using hled

end Votes

section Orders

variable {bs : List SignedBody} {order : List Letter}

theorem exists_split_of_perm (h : order.Perm (⟨.generic, m⟩ :: bs.map (Letter.mk .vote))) :
    ∃ pre post : List SignedBody,
      order = pre.map (Letter.mk .vote) ++ ⟨.generic, m⟩ :: post.map (Letter.mk .vote) ∧
      (pre ++ post).Perm bs := by
  obtain ⟨pre, post, rfl⟩ : ∃ pre post, order = pre ++ ⟨.generic, m⟩ :: post :=
    List.append_of_mem (h.symm.subset List.mem_cons_self)
  have hvotes : (pre ++ post).Perm (bs.map (Letter.mk .vote)) :=
    (List.perm_middle.symm.trans h).cons_inv
  have hvote : ∀ x ∈ pre ++ post, Letter.mk .vote x.signed = x := fun x hx => by
    obtain ⟨b, -, rfl⟩ := List.mem_map.1 (hvotes.subset hx)
    rfl
  refine ⟨pre.map Letter.signed, post.map Letter.signed, ?_, ?_⟩
  · have hpre : pre.map (Letter.mk .vote ∘ Letter.signed) = pre.map id :=
      List.map_congr_left fun x hx => hvote x (List.mem_append_left _ hx)
    have hpost : post.map (Letter.mk .vote ∘ Letter.signed) = post.map id :=
      List.map_congr_left fun x hx => hvote x (List.mem_append_right _ hx)
    rw [List.map_map, List.map_map, hpre, hpost, List.map_id, List.map_id]
  · simpa [Function.comp_def] using hvotes.map Letter.signed

/-- If an expecting core hears the node and a poll for it in any order, it certifies the node and
proposes on top of it when the node does not come last, and otherwise stays in the view of the
node. -/
theorem Expecting.led_iff (h : Expecting ctx m tree [] l.turn)
    (hread : ctx.receive (Letter.envelope ⟨.generic, m⟩) = .ok m)
    (hnext : m.body.view.next? = some next) (hleads : ctx.leads next)
    (hsign : ctx.signer.sign?.isSome)
    (hproduce : ∀ app, ∃ data, (ctx.application.produce app).1 = .ok data)
    (hpoll : Poll ctx m.body bs)
    (horder : order.Perm (⟨.generic, m⟩ :: bs.map (Letter.mk .vote))) :
    (order.getLast? ≠ some ⟨.generic, m⟩ → Led m.body next (l.hear ctx order)) ∧
      (order.getLast? = some ⟨.generic, m⟩ →
        (l.hear ctx order).state.view = m.body.view ∧
          (l.hear ctx order).state.proposal = some m.body) := by
  obtain ⟨pre, post, rfl, hperm⟩ := exists_split_of_perm horder
  have hsplit := hpoll.perm hperm
  have hexpecting : Expecting ctx m tree pre (l.hear ctx (pre.map (Letter.mk .vote))).turn := by
    refine hear_ballots rfl h fun {ms b rest l} hall hexpecting => ?_
    have hsofar : Poll ctx m.body (ms ++ b :: (rest ++ post)) := by
      rw [← hall] at hsplit
      simpa using hsplit
    exact hexpecting.take_ballot hnext hleads rfl (hsofar.ballots b (by simp)) hsofar.fresh
  have hcollecting := hexpecting.take_node hread hnext hleads
  have hhear : l.hear ctx (pre.map (Letter.mk .vote) ++ ⟨.generic, m⟩ :: post.map (Letter.mk .vote)) =
      (Life.take ctx (l.hear ctx (pre.map (Letter.mk .vote)))
        (.feed (Letter.envelope ⟨.generic, m⟩))).hear ctx (post.map (Letter.mk .vote)) := by
    simp [Life.hear]
  rw [hhear]
  -- Without a vote behind the node, nothing is left that could complete the quorum.
  rcases List.eq_nil_or_concat' post with rfl | ⟨front, b, rfl⟩
  · refine ⟨fun hlast => absurd (by simp) hlast, fun _ => ?_⟩
    exact ⟨hcollecting.view, hcollecting.proposal⟩
  · refine ⟨fun _ => hcollecting.hear_poll hnext hleads hsplit hsign hproduce, fun hlast => ?_⟩
    rw [List.map_append, ← List.cons_append, ← List.append_assoc] at hlast
    cases hlast.symm.trans List.getLast?_concat

end Orders

end Phases

section Runs

/-- All stored nodes other than dummies are of earlier views, or of the current view if the core has
a proposal in it. -/
theorem Reached.nodes_past {known : State × Chain → Prop} {l : Life Chain σ}
    (h : Reached ctx known l) : ∀ x ∈ l.memory.tree.nodes, x.justify = Certificate.genesis ∨
      x.view < l.state.view ∨ x.view = l.state.view ∧ l.state.proposal.isSome := by
  induction h with
  | born app =>
    intro x hx
    obtain rfl : x = genesisNode ctx.scheme := List.mem_singleton.1 hx
    exact .inl rfl
  | @step l l' _ hstep ih =>
    intro x hx
    rcases hstep.tree.2 x hx with hx | ⟨⟨-, hjustify⟩⟩ | ⟨hproposal, hview⟩
    · refine (ih x hx).imp_right fun hpast => ?_
      rcases hstep.ascends with hlt | ⟨heq, hsome⟩
      · have hle : x.view ≤ l.state.view :=
          hpast.elim UInt64.le_of_lt fun h => h.1 ▸ UInt64.le_refl _
        exact .inl (UInt64.lt_of_le_of_lt hle hlt)
      · exact heq ▸ hpast.imp_right fun h => ⟨h.1, hsome h.2⟩
    · exact .inl hjustify
    · exact .inr (.inr ⟨hview, hproposal ▸ rfl⟩)

variable {n : Nat} {g : Group n σ} {w : World n .chained σ} {m : SignedBody} {tree : NodeTree}

theorem outdone_of_sound {view view' : View} {qc : Certificate} (h : Sound g w view qc.subject)
    (hle : view ≤ view') : Outdone view' qc := by
  rcases h.source with hinitial | ⟨hlt, -⟩
  · have hview : qc.view = 0 := congrArg Subject.view hinitial
    have hphase : qc.phase = .newView := congrArg Subject.phase hinitial
    rcases UInt64.lt_or_eq_of_le (UInt64.zero_le (a := view')) with hlt | heq
    · exact .inl (hview ▸ hlt)
    · exact .inr ⟨hview.trans heq, hphase⟩
  · exact .inl (UInt64.lt_of_lt_of_le hlt hle)

section Loyal

variable (h : Reachable g ∅ w) (hfree : CollisionFree g w)

include h hfree

theorem view_le_of_certifies {b below : Body} (hb : b ∈ w.proposals b.view)
    (hbelow : World.Node g w below) (hid : b.justify.nodeId = below.id) : below.view ≤ b.view := by
  rcases certified_by_proposal h hfree hb hbelow hid with rfl | ⟨hlt, hproposal, -⟩
  · exact UInt64.zero_le
  · rw [(World.mem_proposals.1 hproposal).2]
    exact UInt64.le_of_lt hlt

theorem view_le_of_finality {top b : Body} (htop : top ∈ w.proposals top.view)
    (hfinal : Finality (World.Node g w) top b) : b.view ≤ top.view := by
  obtain ⟨⟨b1, b0, h1, h0, hdirect2, hdirect1, hdirect0⟩, hb⟩ := hfinal
  have hb1 := proposal_of_certifies h hfree h1 h0 hdirect1.certifies
  have hb0 := proposal_of_certifies h hfree h0 hb hdirect0.certifies
  calc b.view ≤ b0.view := view_le_of_certifies h hfree hb0 hb hdirect0.certifies
    _ ≤ b1.view := view_le_of_certifies h hfree hb1 h0 hdirect1.certifies
    _ ≤ top.view := view_le_of_certifies h hfree htop h1 hdirect2.certifies

theorem contains_proposal_eq_false {i : Fin n} (hm : m.body ∈ w.proposals m.view)
    (hview : (w i).state.view ≤ m.view)
    (hnone : m.view = (w i).state.view → (w i).state.proposal = none) :
    (w i).memory.tree.contains m.body.id = false := by
  have hreached := reached_of_reachable h i
  refine Bool.eq_false_iff.2 fun hknown => ?_
  obtain ⟨x, hget⟩ := NodeTree.exists_of_contains hknown
  obtain ⟨hx, hid⟩ := NodeTree.mem_of_get? hget
  have hstored : World.Node g w x := node_of_node (hreached.planted.nodes x hx)
  obtain rfl := hfree.distinct hstored (node_of_proposal h hm) hid
  rcases hreached.nodes_past _ hx with hgenesis | hlt | ⟨heq, hsome⟩
  · exact (sound_of_proposal h hfree hm).nonzero (congrArg Certificate.nodeId hgenesis)
  · exact UInt64.not_lt.2 hview hlt
  · rw [hnone heq] at hsome
    cases hsome

theorem prospective_of_acceptable {i : Fin n} (hm : m.body ∈ w.proposals m.view)
    (hacceptable : Acceptable (g.context i) m (w i).turn tree) :
    Prospective m tree (w i).memory.high := by
  have hreached := reached_of_reachable h i
  have hnodes := hreached.planted.nodes
  have hnode := node_of_proposal h hm
  have htree : ∀ x ∈ tree.nodes, World.Node g w x := by
    rcases bridged_cases hacceptable.bridged with rfl | ⟨-, dummies, hchain, -, rfl⟩
    · exact fun x hx => node_of_node (hnodes x hx)
    · intro x hx
      rcases NodeTree.mem_insertAll hx with hx | hx
      · exact node_of_node ((NodeTree.dummyChain_spec hnodes hchain).1 x hx).1
      · exact node_of_node (hnodes x hx)
  have hheard : ∀ x ∈ (w i).heard, x.kind = .newView ∨ x.kind = .generic →
      Sound g w x.body.view x.body.justify.subject := fun x hx hkind =>
    (sound_of_reachable h hfree i x hkind).1 hx
  have hhigh : Sound g w (w i).state.view (w i).memory.high.subject :=
    (hreached.fitted (lasting_sound hfree i) (fits_sound hfree rfl hreached hheard)).high
  refine ⟨fun x hx hid => hfree.distinct (htree x hx) hnode hid, fun b hfinal => ?_,
    outdone_of_sound hhigh hacceptable.view_le,
    outdone_of_sound (sound_of_proposal h hfree hm) (UInt64.le_refl _)⟩
  obtain ⟨⟨b1, b0, h1, h0, hlinks⟩, hb⟩ := hfinal
  have hworld : ∀ x ∈ (tree.insert m.body).nodes, World.Node g w x := fun x hx =>
    (NodeTree.mem_insert hx).elim (fun heq => heq ▸ hnode) (htree x)
  exact view_le_of_finality h hfree hm ⟨⟨b1, b0, hworld b1 h1, hworld b0 h0, hlinks⟩, hworld b hb⟩

/-- Without traitors, let the leader of the view after that of a proposal hear the proposal and a
poll for it in any order, with an empty log of votes and an application that always produces data.
It certifies the proposal and proposes on top of it if and only if the proposal is not the last
message. If it is the last, the core stays in its view. -/
theorem led_iff_not_last {i : Fin n} {next : View} {bs : List SignedBody} {order : List Letter}
    (hm : m.body ∈ w.proposals m.view)
    (htakes : TakesOver (g.context i) (w i).machine (Letter.envelope ⟨.generic, m⟩) m)
    (hwindow : (w i).state.inWindow m.view) (hnone : (w i).state.votes.forView m.view = [])
    (hnext : m.view.next? = some next) (hleads : (g.context i).leads next)
    (hsign : (g.context i).signer.sign?.isSome)
    (hproduce : ∀ app, ∃ data, ((g.context i).application.produce app).1 = .ok data)
    (hpoll : Poll (g.context i) m.body bs)
    (horder : order.Perm (⟨.generic, m⟩ :: bs.map (Letter.mk .vote))) :
    (Led m.body next ((w i).hear (g.context i) order) ↔ order.getLast? ≠ some ⟨.generic, m⟩) ∧
      (order.getLast? = some ⟨.generic, m⟩ →
        ((w i).hear (g.context i) order).state.view = m.view ∧
          ((w i).hear (g.context i) order).state.proposal = some m.body) := by
  obtain ⟨tree, hacceptable, -⟩ := htakes.acceptable
  have hindexed := (reached_of_reachable h i).logged.votes.indexed
  have hexpecting : Expecting (g.context i) m tree [] (w i).turn :=
    ⟨⟨htakes.running, hacceptable.view_le, hwindow, hindexed, hnone, by simp⟩, hacceptable,
      contains_proposal_eq_false h hfree hm hacceptable.view_le hacceptable.free,
      prospective_of_acceptable h hfree hm hacceptable⟩
  obtain ⟨hled, hlast⟩ := hexpecting.led_iff htakes.read hnext hleads hsign hproduce hpoll horder
  refine ⟨⟨fun hled hlate => ?_, hled⟩, hlast⟩
  have hsame : next = m.view := hled.view.symm.trans (hlast hlate).1
  exact UInt64.lt_irrefl _ (hsame ▸ View.lt_next hnext)

end Loyal

end Runs

section Samples

open Legible Cast

def polledNode : SignedBody := ((polledRun 1).letters.getLastD default).signed

def polledVotes : List SignedBody :=
  [((polledRun 0).letters.getLastD default).signed, ((polledRun 3).letters.getLastD default).signed]

theorem polledRun_spec :
    Parted (roots four polledRun) ∧ polledNode.body ∈ polledRun.proposals polledNode.view ∧
    (four.context 2).receive (Letter.envelope ⟨.generic, polledNode⟩) = .ok polledNode ∧
    (polledRun 2).machine.state.view ≤ polledNode.view ∧
    (polledRun 2).machine.state.proposal = none ∧
    ((polledRun 2).machine.step (four.context 2)
      (.feed (Letter.envelope ⟨.generic, polledNode⟩))).result = .ok () ∧
    (polledRun 2).state.inWindow polledNode.view ∧
    (polledRun 2).state.votes.forView polledNode.view = [] ∧ polledNode.view.next? = some 1 := by
  decide +kernel

theorem polledVotes_spec :
    (∀ b ∈ polledVotes, (four.context 2).receive (Letter.envelope ⟨.vote, b⟩) = .ok b ∧
      b.view = polledNode.body.view ∧ b.phase = .generic ∧ b.body.parentId = polledNode.body.id ∧
      b.body.payload = polledNode.body.payload) ∧
    (polledVotes.map SignedBody.signer).Nodup ∧
    polledVotes.length = quorumThreshold (four.context 2).committee.size := by
  decide +kernel

theorem poll_polledVotes : Poll (four.context 2) polledNode.body polledVotes := by
  obtain ⟨hballots, hdistinct, hsize⟩ := polledVotes_spec
  refine ⟨fun b hb => ?_, hdistinct, hsize⟩
  obtain ⟨hread, hview, hphase, hid, hpayload⟩ := hballots b hb
  exact ⟨hread, hview, hphase, hid, hpayload⟩

/-- A leader that hears two votes for the proposal of view 0 and then the proposal makes no
certificate. -/
theorem not_led_of_last :
    TakesOver (four.context 2) (polledRun 2).machine (Letter.envelope ⟨.generic, polledNode⟩)
      polledNode ∧
    Poll (four.context 2) polledNode.body polledVotes ∧
    ¬ Led polledNode.body 1 ((polledRun 2).hear (four.context 2)
      (polledVotes.map (Letter.mk .vote) ++ [⟨.generic, polledNode⟩])) := by
  obtain ⟨hparted, hm, hread, hview, hfree, hok, hwindow, hnone, hnext⟩ := polledRun_spec
  have htakes : TakesOver (four.context 2) (polledRun 2).machine
      (Letter.envelope ⟨.generic, polledNode⟩) polledNode := ⟨rfl, hread, hview, fun _ => hfree, hok⟩
  have hreachable : Reachable four ∅ polledRun := Cast.reachable_play ..
  have hdistinct : CollisionFree four polledRun := collisionFree_of_parted rfl hparted
  have hlast := led_iff_not_last hreachable hdistinct hm htakes hwindow hnone hnext (by decide) rfl
    (fun _ => ⟨_, rfl⟩) poll_polledVotes (List.perm_append_singleton _ _)
  exact ⟨htakes, poll_polledVotes, fun hled => hlast.1.1 hled List.getLast?_concat⟩

end Samples

end Chained

end Concord.Core
