import Concord.Proofs.Basic.Refusals
import Concord.Proofs.Chained.Refusals
import Concord.Proofs.Legible

/-!
Cores that fail on a message. In most cases the core is unchanged. The exceptions are a node that is
refused after the bridge to its parent was stored, and the faults `Late`, which occur after a
message was accepted: the core cannot sign, produce a payload, bridge the views below its own
proposal, or enter a view after the last.
-/

namespace Concord.Core

variable {v : Variant} {σ : Type} {ctx : Context σ}

/-- `c'` is `c` with the dummies up to the parent of a node that is then refused. -/
def Machine.Bridged (ctx : Context σ) (envelope : Envelope) (fault : Fault) :
    {v : Variant} → Machine v σ → Machine v σ → Prop
  | .basic, _, _ => False
  | .chained, c, c' => ∃ m tree, envelope.kind = .generic ∧ ctx.receive envelope = .ok m ∧
      Chained.Bridged ctx m ⟨c.state, c.memory, c.app, []⟩ fault tree ∧
      c' = { c with memory := { c.memory with tree := tree } }

/-- The possible outcomes of an envelope that `c` refuses with `fault`. -/
inductive Machine.Refused (ctx : Context σ) (c : Machine v σ) (envelope : Envelope) (fault : Fault) :
    Outcome v σ → Prop
  | unchanged : Refused ctx c envelope fault (c.refuse fault)
  | bridged {c' : Machine v σ} : c.Bridged ctx envelope fault c' →
      Refused ctx c envelope fault (c'.refuse fault)
  | late {m : SignedBody} {outcome : Outcome v σ} : ctx.receive envelope = .ok m →
      fault.Late ctx v envelope.kind m c.app →
      (fault.Ended ∧ envelope.kind ≠ .generic ∨
        ∀ effect ∈ outcome.effects, effect.outward = false) →
      Refused ctx c envelope fault outcome

theorem Machine.Refused.eq_refuse {c : Machine v σ} {envelope : Envelope} {fault : Fault}
    {outcome : Outcome v σ} (h : c.Refused ctx envelope fault outcome)
    (hbridged : ∀ c', ¬ c.Bridged ctx envelope fault c')
    (hlate : ∀ m, ctx.receive envelope = .ok m → ¬ fault.Late ctx v envelope.kind m c.app) :
    outcome = c.refuse fault := by
  cases h with
  | unchanged => rfl
  | bridged hbridge => exact absurd hbridge (hbridged _)
  | late hreceive hfault => exact absurd hfault (hlate _ hreceive)

theorem Machine.run_eq (c : Machine v σ) (h : Handler (Memory v) σ Unit) :
    c.run h = ⟨⟨(Handler.exec h ⟨c.state, c.memory, c.app, []⟩).2.state,
      (Handler.exec h ⟨c.state, c.memory, c.app, []⟩).2.memory,
      (Handler.exec h ⟨c.state, c.memory, c.app, []⟩).2.app⟩,
      (Handler.exec h ⟨c.state, c.memory, c.app, []⟩).1,
      (Handler.exec h ⟨c.state, c.memory, c.app, []⟩).2.effects⟩ :=
  rfl

theorem Machine.refused_run {c : Machine v σ} {envelope : Envelope} {m : SignedBody} {fault : Fault}
    {trace : Turn (Memory v) σ → Fault → Turn (Memory v) σ → Prop}
    (hreceive : ctx.receive envelope = .ok m)
    (hrefuses : Handler.Refuses (Fault.Late ctx v envelope.kind m)
      (fun fault => fault.Ended ∧ envelope.kind ≠ .generic) trace (dispatch ctx envelope.kind m))
    (htrace : ∀ t', trace ⟨c.state, c.memory, c.app, []⟩ fault t' → t'.effects = [] ∧
      c.Bridged ctx envelope fault ⟨t'.state, t'.memory, t'.app⟩)
    (hfail : (c.run (dispatch ctx envelope.kind m)).result = .error fault) :
    c.Refused ctx envelope fault (c.run (dispatch ctx envelope.kind m)) := by
  have hresult : (Handler.exec (dispatch ctx envelope.kind m)
      ⟨c.state, c.memory, c.app, []⟩).1 = .error fault := hfail
  rcases hrefuses _ _ hresult with hsame | hbridged | ⟨hlate, hsilent⟩
  · rw [run_eq, hsame, hresult]
    exact .unchanged
  · obtain ⟨heffects, hbridge⟩ := htrace _ hbridged
    rw [run_eq, heffects, hresult]
    exact .bridged hbridge
  · refine .late hreceive hlate (hsilent.imp_right fun hsame => ?_)
    rw [run_eq]
    simpa [Turn.outgoing] using hsame

/-- If feeding an envelope fails, the core is unchanged, or it has stored only the dummies up to the
parent of a refused node, or the fault is `Late` for the message. In the last case nothing was sent,
postponed or delivered, unless no view follows and the message is not a node. -/
theorem refused_of_error (c : Machine v σ) (envelope : Envelope) {fault : Fault}
    (h : (c.step ctx (.feed envelope)).result = .error fault) :
    c.Refused ctx envelope fault (c.step ctx (.feed envelope)) := by
  simp only [Machine.step] at h ⊢
  cases hreceive : ctx.receive envelope with
  | error reason =>
    rw [hreceive] at h
    cases h
    exact .unchanged
  | ok m =>
    rw [hreceive] at h
    dsimp only at h ⊢
    by_cases hrunning : c.state.status = .running
    · rw [if_pos hrunning] at h ⊢
      cases v with
      | basic =>
        have hrefuses : Handler.Refuses (Fault.Late ctx .basic envelope.kind m)
            (fun fault => fault.Ended ∧ envelope.kind ≠ .generic) (fun _ _ _ => False)
            (Machine.dispatch (v := .basic) ctx envelope.kind m) :=
          Basic.refuses_dispatch envelope.kind m
        exact Machine.refused_run hreceive hrefuses (fun _ => False.elim) h
      | chained =>
        refine Machine.refused_run hreceive (Chained.refuses_dispatch envelope.kind m) ?_ h
        rintro t' ⟨hkind, tree, hbridged, rfl⟩
        exact ⟨rfl, m, tree, hkind, hreceive, hbridged, rfl⟩
    · rw [if_neg hrunning] at h ⊢
      cases h
      exact .unchanged

section Samples

open Legible

def begun : Machine .chained Unit :=
  ((Life.initial scheme .chained ()).take (four.context 0) .begin).machine

def signedBy (i : Nat) (kind : MessageKind) (body : Body) : Letter :=
  ⟨kind, body, key i, stamp (key i) (body.payload.hash scheme), stamp (key i) (body.sealHash scheme)⟩

/-- A NewView for a view beyond the window. -/
def farNewView : Letter :=
  signedBy 1 .newView { Chained.newViewBody begun.state begun.memory with view := 100 }

/-- A node with an unknown parent, more than `maxViewGap` views after the node that it certifies. -/
def farNode : Letter :=
  let justify : Certificate :=
    ⟨⟨.generic, 4097, Payload.genesis, (Chain.tree begun.memory).genesisId⟩, []⟩
  signedBy 3 .generic ((Body.plain 4098 .generic ⟨Digest.zero, [1]⟩ justify).sealId scheme)

def atLast : Machine .chained Unit := { begun with state := { begun.state with view := View.last } }

def lastVote : Letter :=
  signedBy 1 .vote (Body.plain View.last .generic Payload.genesis Certificate.genesis)

/-- A NewView beyond the window, a node with too long a bridge and a vote for the last view leave
the core unchanged. -/
theorem refused_unchanged :
    begun.step (four.context 0) (.feed farNewView.envelope) =
      begun.refuse (.viewOutOfRange (.newView 100 (key 1) 0)) ∧
    begun.step (four.context 0) (.feed farNode.envelope) =
      begun.refuse (.viewOutOfRange (.skipped 4098 0 4098)) ∧
    atLast.step (four.context 0) (.feed lastVote.envelope) =
      atLast.refuse (.viewOutOfRange (.noNext View.last)) := by
  have hnewView : (begun.step (four.context 0) (.feed farNewView.envelope)).result =
      .error (.viewOutOfRange (.newView 100 (key 1) 0)) := by decide +kernel
  have hnode : (begun.step (four.context 0) (.feed farNode.envelope)).result =
      .error (.viewOutOfRange (.skipped 4098 0 4098)) := by decide +kernel
  have hvote : (atLast.step (four.context 0) (.feed lastVote.envelope)).result =
      .error (.viewOutOfRange (.noNext View.last)) := by decide +kernel
  refine ⟨(refused_of_error begun farNewView.envelope hnewView).eq_refuse ?_ ?_,
    (refused_of_error begun farNode.envelope hnode).eq_refuse ?_ ?_,
    (refused_of_error atLast lastVote.envelope hvote).eq_refuse ?_ ?_⟩
  · rintro c' ⟨m, tree, hkind, -⟩
    cases hkind
  · rintro m - (⟨-, h⟩ | ⟨cause, -, h⟩ | ⟨gap, start, stop, h, -⟩ | ⟨h, -⟩) <;> cases h
  · rintro c' ⟨m, tree, -, hreceive, ⟨-, ⟨dummies, hchain, -⟩, -⟩, -⟩
    have hread : (four.context 0).receive farNode.envelope = .ok farNode.signed := by
      decide +kernel
    obtain rfl : farNode.signed = m := Except.ok.inj (hread.symm.trans hreceive)
    have hfar : (Chain.tree begun.memory).dummyChain scheme farNode.signed.justify.nodeId
        farNode.signed.view = .error (.viewOutOfRange (.skipped 4098 0 4098)) := by
      decide +kernel
    cases hfar.symm.trans hchain
  · rintro m - (⟨-, h⟩ | ⟨h, -⟩) <;> cases h
  · rintro c' ⟨m, tree, hkind, -⟩
    cases hkind
  · -- Member 0 leads the last view, so only the view of the vote tells that nothing was changed.
    rintro m hreceive ⟨-, hview⟩
    have hread : (four.context 0).receive lastVote.envelope = .ok lastVote.signed := by
      decide +kernel
    obtain rfl : lastVote.signed = m := Except.ok.inj (hread.symm.trans hreceive)
    exact hview rfl

end Samples

end Concord.Core
