import Concord.Proofs.Chained.Steps
import Concord.Proofs.Vetting

/-!
The data that a core of the chained protocol stores and delivers. A stored node is a dummy without
data, an own proposal, or a proposal that the core took up, and only stored nodes are delivered.
-/

namespace Concord.Core.Chained

open Handler

variable {σ : Type} {ctx : Context σ}

section Turns

variable {held : Body → Prop} {app₀ : σ} {effects effects' : List Effect} {t t' : Turn Chain σ}
  {node : Body} {m : SignedBody}

/-- The node has no data, or was held at the start of the turn, or was proposed in it. -/
def Backed (ctx : Context σ) (held : Body → Prop) (app₀ : σ) (effects : List Effect) (node : Body) :
    Prop :=
  node.payload.data = [] ∨ held node ∨ Offers ctx app₀ effects node

theorem Backed.mono (h : Backed ctx held app₀ effects node) (hsub : effects ⊆ effects') :
    Backed ctx held app₀ effects' node :=
  h.imp_right (Or.imp_right fun hoffers => hoffers.mono hsub)

/-- All stored nodes are backed, and each delivered payload is that of a node that was backed before
the delivery. -/
structure Kept (ctx : Context σ) (held : Body → Prop) (app₀ : σ) (t : Turn Chain σ) : Prop where
  nodes : ∀ x ∈ t.memory.tree.nodes, Backed ctx held app₀ t.effects x
  delivered : ∀ view payload, .deliver view payload ∈ t.effects → ∃ before x,
    before ++ [.deliver view payload] <+: t.effects ∧ Backed ctx held app₀ before x ∧
      payload = x.payload

theorem Kept.more {es : List Effect} (h : Kept ctx held app₀ t)
    (htree : ∀ x ∈ t'.memory.tree.nodes, x.payload.data = [] ∨ x ∈ t.memory.tree.nodes)
    (heffects : t'.effects = t.effects ++ es) (hes : es.filterMap Effect.decision? = []) :
    Kept ctx held app₀ t' := by
  have hsub : t.effects ⊆ t'.effects := heffects ▸ List.subset_append_left _ _
  refine ⟨fun x hx => (htree x hx).elim .inl fun hx => (h.nodes x hx).mono hsub,
    fun view payload hmem => ?_⟩
  rw [heffects, List.mem_append] at hmem
  rcases hmem with hmem | hmem
  · obtain ⟨before, x, hbefore, hx, hpayload⟩ := h.delivered view payload hmem
    exact ⟨before, x, hbefore.trans (heffects ▸ List.prefix_append _ _), hx, hpayload⟩
  · have hview : view ∈ es.filterMap Effect.decision? := List.mem_filterMap.2 ⟨_, hmem, rfl⟩
    rw [hes] at hview
    cases hview

theorem data_of_mem_insertAll {scheme : Crypto.Scheme} {tree : NodeTree} {start : Digest}
    {view : View} {dummies : List Body} (h : tree.dummyChain scheme start view = .ok dummies) :
    ∀ x ∈ (tree.insertAll dummies).nodes, x.payload.data = [] ∨ x ∈ tree.nodes := by
  refine fun x hx => (NodeTree.mem_insertAll hx).imp_left fun hdummy => ?_
  obtain ⟨_, _, rfl⟩ := NodeTree.exists_of_mem_dummyChain h hdummy
  rfl

theorem data_of_mem_backfill {scheme : Crypto.Scheme} {tree tree' : NodeTree}
    {start parentId : Digest} {view : View}
    (h : tree.backfill scheme start view = .ok (tree', parentId)) :
    ∀ x ∈ tree'.nodes, x.payload.data = [] ∨ x ∈ tree.nodes := by
  unfold NodeTree.backfill at h
  split at h
  · cases h
  · next hchain =>
    cases h
    exact data_of_mem_insertAll hchain

theorem Kept.adopt (h : Kept ctx held app₀ t) (hnode : Backed ctx held app₀ t.effects node) :
    Kept ctx held app₀ (exec (adopt ctx node) t).2 := by
  have hadopted := (adopt_exec ctx node (lifeOf t) t).spec
  generalize (exec (Chained.adopt ctx node) t).2 = t' at hadopted ⊢
  obtain ⟨es, hdone, hes⟩ := hadopted.asked
  have heffects : t'.effects = t.effects ++ es := hdone
  have hsub : t.effects ⊆ t'.effects := heffects ▸ List.subset_append_left _ _
  have hbacked : ∀ x, x = node ∨ x ∈ t.memory.tree.nodes → Backed ctx held app₀ t.effects x := by
    rintro x (rfl | hx)
    · exact hnode
    · exact h.nodes x hx
  refine ⟨fun x hx => (hbacked x (hadopted.nodes x hx)).mono hsub, fun view payload hmem => ?_⟩
  rw [heffects, List.mem_append] at hmem
  rcases hmem with hmem | hmem
  · obtain ⟨before, x, hbefore, hx, hpayload⟩ := h.delivered view payload hmem
    exact ⟨before, x, hbefore.trans (heffects ▸ List.prefix_append _ _), hx, hpayload⟩
  · cases hes _ hmem with
    | @deliver b hfinal =>
      obtain ⟨front, rest, rfl⟩ := List.append_of_mem hmem
      refine ⟨t.effects ++ front, b, ⟨rest, ?_⟩, ?_, rfl⟩
      · rw [heffects]
        simp
      · exact (hbacked b hfinal.mem).mono (List.subset_append_left _ _)

theorem Kept.propose (h : Kept ctx held app₀ t) (happ : t.app = app₀) :
    Kept ctx held app₀ (exec (propose ctx) t).2 := by
  rcases exec_propose_cases ctx t with hsame | ⟨tree, parentId, app, hbackfill, hexec⟩ |
    ⟨tree, parentId, data, app, letter, hproposable⟩
  · rwa [hsame]
  · rw [hexec]
    exact h.more (data_of_mem_backfill hbackfill) (List.append_nil _).symm rfl
  · rw [hproposable.exec_eq]
    have hwrote := Context.wrote_of_build hproposable.built
    refine Kept.adopt (h.more (data_of_mem_backfill hproposable.backfill) rfl rfl)
      (.inr (.inr ⟨⟨.broadcast letter, by simp [announcing], ?_⟩, app₀, app, .start, ?_⟩))
    · simp [Effect.proposal?, hwrote.kind_eq, hwrote.body_eq]
    · exact happ ▸ hproposable.produced

theorem Gather.turn_eq {l l' : Life Chain σ} (h : Gather ctx l l') : l'.memory.tree = l.memory.tree ∧
    l'.app = l.app ∧ l'.done = l.done := by
  cases h
  exact ⟨rfl, rfl, List.append_nil _⟩

theorem Kept.lead (h : Kept ctx held app₀ t) (happ : t.app = app₀) :
    Kept ctx held app₀ (exec (do if ← takeNewViews ctx then Chained.propose ctx) t).2 := by
  have htake := exec_takeNewViews ctx (lifeOf t) t
  rw [exec_bind]
  rcases hexec : exec (takeNewViews ctx) t with ⟨result, t'⟩
  rw [hexec] at htake
  rcases htake with ⟨rfl, hfalse⟩ | ⟨rfl, hgather⟩
  · rcases result with fault | _ | _
    · exact h
    · exact h
    · exact absurd rfl hfalse
  · obtain ⟨htree, happ', hdone⟩ := hgather.turn_eq
    have hkept : Kept ctx held app₀ t' :=
      h.more (fun x hx => .inr (htree ▸ hx)) (hdone.trans (List.append_nil _).symm) rfl
    exact hkept.propose (happ'.trans happ)

theorem Kept.openRound (h : Kept ctx held app₀ t) (happ : t.app = app₀) :
    Kept ctx held app₀ (exec (openRound ctx) t).2 := by
  rw [Chained.openRound, exec_bind, exec_state]
  simp only [exec_ite]
  split
  · exact h.lead happ
  · rw [exec_bind, exec_memory]
    dsimp only
    rw [exec_post]
    exact h.more (fun _ => .inr) rfl (decisions_posted ..)

theorem Kept.advanceTo {view : View} (h : Kept ctx held app₀ t) (happ : t.app = app₀) :
    Kept ctx held app₀ (exec (advanceTo (Chained.openRound ctx) view) t).2 := by
  rw [exec_advanceTo]
  have hentered : Kept ctx held app₀ { t with
      state := State.resetRound { t.state with view := view, phase := .newView }
      effects := t.effects ++ [.resetTimer] } := h.more (fun _ => .inr) rfl rfl
  exact hentered.openRound happ

theorem Kept.onNewView (h : Kept ctx held app₀ t) (happ : t.app = app₀) :
    Kept ctx held app₀ (exec (onNewView ctx m) t).2 := by
  have hkeep := exec_acceptNewView ctx m t
  rw [Chained.onNewView, exec_bind]
  rcases hexec : exec (acceptNewView ctx m) t with ⟨result, t'⟩
  rw [hexec] at hkeep
  obtain ⟨hkept, happ'⟩ : Kept ctx held app₀ t' ∧ t'.app = app₀ := by
    rcases hkeep with rfl | ⟨-, -, -, rfl⟩
    · exact ⟨h, happ⟩
    · exact ⟨h.more (fun _ => .inr) (List.append_nil _).symm rfl, happ⟩
  rcases result with fault | _ | _
  · exact hkept
  · exact hkept
  · exact hkept.lead happ'

theorem Kept.onVote (h : Kept ctx held app₀ t) (happ : t.app = app₀) :
    Kept ctx held app₀ (exec (onVote ctx m) t).2 := by
  rcases exec_onVote ctx m t with ⟨next, hcountable⟩ | ⟨result, hsame⟩
  · have hlogged : Kept ctx held app₀ (logged m t) :=
      h.more (fun _ => .inr) (List.append_nil _).symm rfl
    rw [hcountable.exec_eq, tally]
    split
    · exact hlogged
    · split
      · split
        · exact hlogged
        · refine Kept.propose (hlogged.more (fun _ => .inr) rfl rfl) happ
      · exact hlogged
  · rwa [hsame]

theorem Kept.onGeneric (h : Kept ctx held app₀ t) :
    Kept ctx held app₀ (exec (onGeneric ctx m) t).2 ∨
      ∃ tree, Acceptable ctx m t tree ∧
        (exec (onGeneric ctx m) t).2.state.proposal = some m.body ∧
        Kept ctx (fun x => x = m.body ∨ held x) app₀ (exec (onGeneric ctx m) t).2 := by
  have htree : ∀ {tree}, tree = t.memory.tree ∨ bridged ctx.scheme t.memory.tree m.body = .ok tree →
      ∀ x ∈ tree.nodes, x.payload.data = [] ∨ x ∈ t.memory.tree.nodes := by
    rintro tree (rfl | hbridged) x hx
    · exact .inr hx
    · rcases bridged_cases hbridged with rfl | ⟨-, dummies, hchain, -, rfl⟩
      · exact .inr hx
      · exact data_of_mem_insertAll hchain x hx
  rcases exec_onGeneric ctx m t with ⟨tree, hacceptable⟩ | ⟨result, tree, ⟨-, hdeclined⟩, hexec⟩
  · refine .inr ⟨tree, hacceptable, ?_⟩
    rw [hacceptable.exec_eq]
    have hsteady := (adopt_exec ctx m.body (lifeOf t) (nominated m tree t)).steady
    have hwider : Kept ctx (fun x => x = m.body ∨ held x) app₀ t :=
      ⟨fun x hx => (h.nodes x hx).imp_right (Or.imp_left .inr), fun view payload hmem => by
        obtain ⟨before, x, hbefore, hx, hpayload⟩ := h.delivered view payload hmem
        exact ⟨before, x, hbefore, hx.imp_right (Or.imp_left .inr), hpayload⟩⟩
    have hnominated : Kept ctx (fun x => x = m.body ∨ held x) app₀ (nominated m tree t) :=
      hwider.more (htree (.inr hacceptable.bridged)) rfl rfl
    exact ⟨hsteady.proposal, hnominated.adopt (.inr (.inl (.inl rfl)))⟩
  · rw [hexec]
    exact .inl (h.more (htree (hdeclined.imp_right And.left)) (List.append_nil _).symm rfl)

end Turns

section Steps

variable {l : Life (Memory .chained) σ} {input : Input}

theorem kept_turn (ctx : Context σ) (l : Life (Memory .chained) σ) :
    Kept ctx (· ∈ (Chain.tree l.memory).nodes) l.app l.turn :=
  ⟨fun _ hx => .inr (.inl hx), nofun⟩

/-- The results of a turn: all stored and delivered nodes are backed, apart from one node that is
accepted. -/
inductive Turned (ctx : Context σ) (l : Life (Memory .chained) σ) :
    Input → Turn (Memory .chained) σ → Prop
  | kept {input : Input} {t : Turn (Memory .chained) σ} :
      Kept ctx (· ∈ (Chain.tree l.memory).nodes) l.app t → Turned ctx l input t
  | tookOver {envelope : Envelope} {m : SignedBody} {tree : NodeTree}
      {t : Turn (Memory .chained) σ} :
      ctx.receive envelope = .ok m → Acceptable ctx m l.turn tree →
      t.state.proposal = some m.body →
      Kept ctx (fun x => x = m.body ∨ x ∈ (Chain.tree l.memory).nodes) l.app t →
      Turned ctx l (.feed envelope) t

theorem turned_step (input : Input) : Turned ctx l input (l.machine.step ctx input).turn := by
  have hends : Life.Ends ctx l input (l.machine.step ctx input).turn := Life.ends_step input
  generalize (l.machine.step ctx input).turn = t at hends ⊢
  have hstart := kept_turn ctx l
  cases hends with
  | ignored => exact .kept hstart
  | stopped => exact .kept (hstart.more (fun _ => .inr) (List.append_nil _).symm rfl)
  | began =>
    have hbegun : Kept ctx (· ∈ (Chain.tree l.memory).nodes) l.app { l.turn with
        state := State.resetRound { l.state with status := .running }
        effects := [.resetTimer] } := hstart.more (fun _ => .inr) rfl rfl
    exact .kept (hbegun.openRound rfl)
  | @read envelope m hrunning hreceive =>
    cases hkind : envelope.kind with
    | newView => exact .kept (hstart.onNewView rfl)
    | vote => exact .kept (hstart.onVote rfl)
    | generic =>
      have hgeneric := hstart.onGeneric (m := m)
      rcases hgeneric with hkept | ⟨tree, hacceptable, hproposal, hkept⟩
      · exact .kept hkept
      · exact .tookOver hreceive hacceptable hproposal hkept
    | prepare | preCommit | commit | decide => exact .kept hstart
  | advanced => exact .kept (hstart.advanceTo rfl)
  | sent =>
    rw [exec_send]
    dsimp only
    split
    · exact .kept hstart
    · exact .kept (hstart.more (fun _ => .inr) rfl rfl)

/-- Every node that is stored or delivered in a turn has no data, or was stored before, or the
application has vouched for its data by then. -/
theorem vouched_of_backed (ctx : Context σ) (l : Life (Memory .chained) σ) (input : Input) :
    ∃ backed : List Effect → Body → Prop,
    (∀ effects x, backed effects x → x.payload.data = [] ∨ x ∈ (Chain.tree l.memory).nodes ∨
      VouchedBy ctx l effects input x.payload.data) ∧
    (∀ x ∈ (Chain.tree (l.machine.step ctx input).machine.memory).nodes,
      backed (l.machine.step ctx input).effects x) ∧
    ∀ view payload, .deliver view payload ∈ (l.machine.step ctx input).effects → ∃ before x,
      before ++ [.deliver view payload] <+: (l.machine.step ctx input).effects ∧
        backed before x ∧ payload = x.payload := by
  have hturned : Turned ctx l input (l.machine.step ctx input).turn := turned_step input
  obtain ⟨t, ht⟩ : ∃ t, (l.machine.step ctx input).turn = t := ⟨_, rfl⟩
  have hstate : (l.machine.step ctx input).machine.state = t.state := congrArg Turn.state ht
  have hmemory : (l.machine.step ctx input).machine.memory = t.memory := congrArg Turn.memory ht
  have heffects : (l.machine.step ctx input).effects = t.effects := congrArg Turn.effects ht
  rw [ht] at hturned
  rw [hmemory, heffects]
  cases hturned with
  | kept hkept =>
    exact ⟨Backed ctx (· ∈ (Chain.tree l.memory).nodes) l.app,
      fun effects x hx => hx.imp_right (Or.imp_right .produced), hkept.nodes, hkept.delivered⟩
  | @tookOver envelope m tree _ hreceive hacceptable hproposal hkept =>
    -- The core held no proposal of the view of the node.
    have hbare : l.state.view < m.view ∨ l.state.proposal = none := by
      rcases UInt64.lt_or_eq_of_le hacceptable.view_le with hlt | heq
      · exact .inl hlt
      · exact .inr (hacceptable.free heq.symm)
    have htakes : TakesUp ctx l envelope m :=
      ⟨hreceive, hbare, (congrArg State.proposal hstate).trans hproposal⟩
    refine ⟨Backed ctx (fun x => x = m.body ∨ x ∈ (Chain.tree l.memory).nodes) l.app,
      fun effects x hx => hx.imp_right fun hx => ?_, hkept.nodes, hkept.delivered⟩
    rcases hx with (rfl | hx) | hoffers
    · exact .inr (.accepted htakes (Context.accepts_of_checkProposal hacceptable.checked))
    · exact .inl hx
    · exact .inr (.produced hoffers)

theorem vetted_of_stored {vetted : Bytes → Prop} (h : Vetted ctx l vetted) {x : Body}
    (hx : x ∈ (Chain.tree l.memory).nodes) (hdata : x.payload.data ≠ []) :
    vetted x.payload.data := by
  induction h with
  | born app =>
    obtain rfl : x = genesisNode ctx.scheme := List.mem_singleton.1 hx
    exact absurd rfl hdata
  | @take l vetted input hvetted _ ih =>
    obtain ⟨backed, hbacked, hstored, -⟩ := vouched_of_backed ctx l input
    rcases hbacked _ x (hstored x hx) with hnone | hold | hvouches
    · exact absurd hnone hdata
    · exact .inl (ih hold)
    · exact .inr hvouches
  | retouch app _ ih => exact ih hx

/-- Delivered data was vouched for in an earlier turn, or earlier in the same turn. -/
theorem vetted_of_delivered {vetted : Bytes → Prop} (h : Vetted ctx l vetted) {view : View}
    {payload : Payload} (hdeliver : .deliver view payload ∈ (l.machine.step ctx input).effects)
    (hdata : payload.data ≠ []) : vetted payload.data ∨ ∃ before,
      before ++ [.deliver view payload] <+: (l.machine.step ctx input).effects ∧
        VouchedBy ctx l before input payload.data := by
  obtain ⟨backed, hbacked, -, hdelivered⟩ := vouched_of_backed ctx l input
  obtain ⟨before, x, hbefore, hx, rfl⟩ := hdelivered view payload hdeliver
  rcases hbacked before x hx with hnone | hold | hvouched
  · exact absurd hnone hdata
  · exact .inl (vetted_of_stored h hold hdata)
  · exact .inr ⟨before, hbefore, hvouched⟩

end Steps

end Concord.Core.Chained
