import Concord.Proofs.Basic.Moves
import Concord.Proofs.Forgery

/-!
A traitor that leads a view of the five-phase protocol. A Prepare and a Decide with a forged
certificate suffice to make a member deliver any payload.
-/

namespace Concord.Core.Basic

open Handler

variable {n : Nat} {σ : Type} {g : Group n σ} {t : Fin n}

theorem idle (ctx : Context σ) : Idle ctx .basic := by
  intro (t : Turn Unit σ) hnone
  have hopen : ∃ effects, (∀ x, .broadcast x ∉ effects) ∧
      (exec (openRound ctx) t).2 = { t with effects := t.effects ++ effects } := by
    rw [openRound, exec_bind, exec_state]
    simp only [exec_ite]
    split
    · refine ⟨[], by simp, ?_⟩
      rw [exec_tryLead_idle (.inr hnone)]
      simp
    · exact ⟨_, Context.quiet_posted ctx _ _ _, exec_post ctx _ _ _ t⟩
  exact hopen

/-- A body of one phase with a certificate of another phase that has only the traitor's vote. -/
def forgery (pen : Pen g t) (phase certified : Phase) (view : View) (payload : Payload) : Body :=
  Body.plain view phase payload (pen.certificate ⟨certified, view, payload, Digest.zero⟩)

section Deceit

variable {pen : Pen g t} {view : View} {payload : Payload} {i : Fin n} {l : Life (Memory .basic) σ}
  (hseat : g.seat view = t) (hfits : payload.Fits)

include hseat hfits

theorem forges_forgery {kind : MessageKind} {phase certified : Phase}
    (hkind : phase.kind? = some kind) :
    pen.Forges kind (forgery pen phase certified view payload) where
  justify := ⟨_, rfl⟩
  level := rfl
  seat := hseat
  suits := hkind
  fits := ⟨hfits, pen.fits_certificate hfits⟩

omit hseat hfits in
structure Prepared (view : View) (payload : Payload) (l : Life (Memory .basic) σ) : Prop where
  running : l.state.status = .running
  view : l.state.view = view
  phase : l.state.phase = .prepare
  proposal : ∀ b, l.state.proposal = some b → b.payload = payload
  quiet : ∀ x, .broadcast x ∉ l.done
  heard : ∀ x ∈ l.heard, x.kind ≠ .generic

theorem prepared_of_fresh (h : Fresh g l)
    (haccepts : ∀ app, (g.application i).accepts app payload.data) :
    Prepared view payload (l.take (g.context i)
      (.feed (pen.letter .prepare (forgery pen .prepare .prepare view payload)).envelope)) := by
  have hforges : pen.Forges .prepare (forgery pen .prepare .prepare view payload) :=
    forges_forgery hseat hfits rfl
  have hview : l.state.view ≤ view := by
    rw [h.view, UInt64.le_iff_toNat_le]
    simp
  have hcheck := hforges.checkProposal (s := l.state) (extendsLock (g.context i)
    (pen.letter .prepare (forgery pen .prepare .prepare view payload)).signed)
    (haccepts l.app) (by simp [h.locked])
  have hexec : (exec (Machine.dispatch (v := .basic) (g.context i) .prepare
      (pen.letter .prepare (forgery pen .prepare .prepare view payload)).signed) l.turn).2 =
      { l.turn with
        state := { l.state.jump view with
          proposal := some (forgery pen .prepare .prepare view payload)
          phase := .prepare }
        effects := .resetTimer :: ballot (g.context i) view .prepare payload } := by
    rcases exec_onPrepare (g.context i)
      (pen.letter .prepare (forgery pen .prepare .prepare view payload)).signed l.turn with
      ⟨-, hexec⟩ | ⟨hrefused, -⟩
    · exact hexec
    · exact absurd ⟨hview, fun _ => h.phase, hcheck⟩ hrefused
  rw [hforges.take h.running, hexec]
  constructor
  · exact (State.jump_status ..).trans h.running
  · exact State.jump_view hview
  · rfl
  · rintro b ⟨⟩
    rfl
  · simp [Life.noted, h.quiet, ballot, Context.quiet_posted]
  · simp [Life.noted, h.heard, Pen.letter]

theorem deceived_of_prepared (h : Prepared view payload l) (node : Body → Prop) :
    Deceived node view payload (l.take (g.context i)
      (.feed (pen.letter .decide (forgery pen .decide .commit view payload)).envelope)) := by
  have hforges : pen.Forges .decide (forgery pen .decide .commit view payload) :=
    forges_forgery hseat hfits rfl
  have hcheck : checkCertified (g.context i) l.state .decide
      (pen.letter .decide (forgery pen .decide .commit view payload)).signed = .ok () := by
    have hsender : ¬ ((g.context i).leader l.state.view).key ≠ g.key t := by
      rw [h.view, Group.context_leader, hseat]
      exact fun hne => hne rfl
    have hsubject : ¬ (Phase.commit ≠ Phase.commit || view ≠ l.state.view) = true := by
      simp [h.view]
    have hpayload : ¬ (l.state.proposal.any fun b => payload ≠ b.payload) = true := by
      rw [Bool.not_eq_true, Option.any_eq_false]
      exact fun b hb => by simp [h.proposal b hb]
    -- One vote is enough, the one of the traitor.
    have hvotes : ¬ (!(g.context i).verifyCertificate
        (pen.certificate ⟨.commit, view, payload, Digest.zero⟩)) = true := by
      simp [pen.verifyCertificate]
    unfold checkCertified
    exact (if_neg hsender).trans
      ((if_neg hsubject).trans ((if_neg hpayload).trans (if_neg hvotes)))
  have hrank : rank l.state.phase < rank .decide := by
    rw [h.phase]
    decide
  have hexec : (exec (Machine.dispatch (v := .basic) (g.context i) .decide
      (pen.letter .decide (forgery pen .decide .commit view payload)).signed) l.turn).2 =
      { l.turn with
        state := { l.state with phase := .decide, decided := l.state.decided + 1 }
        app := (g.application i).deliver l.app l.state.view payload
        effects := [.resetTimer, .deliver l.state.view payload,
          .postpone l.state.view .nextRound] } := by
    rcases exec_onCertified (g.context i) .decide
      (pen.letter .decide (forgery pen .decide .commit view payload)).signed l.turn with
      ⟨-, hexec⟩ | ⟨hrefused, -⟩
    · exact hexec
    · exact absurd ⟨h.view.symm, hrank, hcheck⟩ hrefused
  have hheard : ∀ x ∈ l.heard, x.kind = .generic → node x.body :=
    fun x hx hkind => absurd hkind (h.heard x hx)
  rw [hforges.take h.running, hexec]
  refine ⟨⟨?_, ?_⟩, ?_⟩
  · simp [Life.noted, h.quiet]
  · simpa [Life.noted, Pen.letter, or_imp, forall_and] using hheard
  · simp [Life.noted, h.view]

/-- If a traitor leads a view, any loyal member in its initial state can be brought to deliver any
payload in that view. -/
theorem exists_deceived (pen : Pen g t) {traitors : Finset (Fin n)} {w : World n .basic σ} {app : σ}
    (h : Reachable g traitors w) (hi : i ∉ traitors) (ht : t ∈ traitors)
    (hinit : w i = Life.initial g.scheme .basic app)
    (haccepts : ∀ app, (g.application i).accepts app payload.data) (node : Body → Prop) :
    ∃ l, Reachable g traitors (Function.update w i l) ∧ Deceived node view payload l := by
  have hbegin := Reachable.take h hi .begin
  have hfresh := fresh_begin (g := g) (i := i) (idle _) app
  rw [← hinit] at hfresh
  have hprepare : pen.Forges .prepare (forgery pen .prepare .prepare view payload) :=
    forges_forgery hseat hfits rfl
  have hdecide : pen.Forges .decide (forgery pen .decide .commit view payload) :=
    forges_forgery hseat hfits rfl
  exact ⟨_, (hbegin.feed hi ht hprepare).feed hi ht hdecide,
    deceived_of_prepared hseat hfits (prepared_of_fresh hseat hfits hfresh haccepts) node⟩

end Deceit

end Concord.Core.Basic
