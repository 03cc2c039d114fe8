import Concord.Proofs.Basic.Progress

/-!
The certificate in the NewViews of the five-phase protocol, compared with the lock. A core reports
its prepared certificate, which changes in the phase `preCommit`. A core can lock a certificate
without having been in that phase, and then the lock is later than the reported certificate.
-/

namespace Concord.Core.Basic

open Handler Relation

variable {σ α β : Type} {ctx : Context σ}

section Preparing

/-- The handler leaves the prepared certificate alone or ends in the phase `preCommit`. -/
def Prepares (h : Handler Unit σ α) : Prop :=
  ∀ t, (exec h t).2.state.prepared = t.state.prepared ∨ (exec h t).2.state.phase = .preCommit

abbrev Abstains (h : Handler Unit σ α) : Prop := Leaves (fun t => t.state.prepared) h

theorem Leaves.prepares {h : Handler Unit σ α} (hh : Abstains h) : Prepares h :=
  fun t => .inl (hh t)

theorem Leaves.bind_prepares {h : Handler Unit σ α} {next : α → Handler Unit σ β}
    (hh : Abstains h) (hnext : ∀ a, Prepares (next a)) : Prepares (h >>= next) := by
  intro t
  have hfirst := hh t
  rw [exec_bind]
  rcases hexec : exec h t with ⟨fault | a, t'⟩
  · rw [hexec] at hfirst
    exact .inl hfirst
  · rw [hexec] at hfirst
    exact (hnext a t').imp_left fun hlast => hlast.trans hfirst

theorem prepares_update {f : State → State} {next : Unit → Handler Unit σ β}
    (hf : ∀ s, (f s).phase = .preCommit)
    (hnext : ∀ a, Leaves (fun t => t.state.phase) (next a)) : Prepares (update f >>= next) := by
  intro t
  rw [exec_bind, exec_update]
  exact .inr ((hnext () _).trans (hf t.state))

theorem abstains_openRound : Abstains (openRound ctx) :=
  leaves_openRound fun _ _ _ hprepared => hprepared

theorem abstains_onNewView (m : SignedBody) : Abstains (onNewView ctx m) := by
  refine Leaves.bind (fun t => ?_) fun kept => ?_
  · rcases exec_acceptNewView ctx m t with hsame | ⟨-, -, -, hkept⟩
    · rw [hsame]
    · rw [hkept]
  · split
    · exact leaves_tryLead fun _ _ _ hprepared => hprepared
    · exact leaves_pure _

theorem abstains_onPrepare (m : SignedBody) : Abstains (onPrepare ctx m) := by
  intro t
  rcases exec_onPrepare ctx m t with ⟨-, hexec⟩ | ⟨-, hexec⟩
  · rw [hexec]
    exact State.jump_prepared _ _
  · rw [hexec]

theorem prepares_onCertified (kind : MessageKind) (m : SignedBody) :
    Prepares (onCertified ctx kind m) := by
  intro t
  rcases exec_onCertified ctx kind m t with ⟨-, hexec⟩ | ⟨-, hexec⟩
  · rw [hexec]
    unfold followed
    split
    · exact .inr rfl
    · exact .inl (State.lock_prepared _ _)
    · exact .inl rfl
  · exact .inl (by rw [hexec])

theorem abstains_advanceTo (view : View) : Abstains (advanceTo (openRound ctx) view) := by
  intro t
  rw [exec_advanceTo]
  exact abstains_openRound _

theorem prepares_certify (view : View) (payload : Payload) (qc : Certificate) :
    Prepares (certify ctx view payload qc) := by
  unfold certify
  split
  · refine prepares_update (fun _ => rfl) fun _ => ?_
    exact (leaves_write fun _ _ => rfl).bind fun _ => leaves_ask fun _ => rfl
  · refine Leaves.prepares (.bind (leaves_update fun _ => State.lock_prepared _ _) fun _ => ?_)
    exact (leaves_write fun _ _ => rfl).bind fun _ => leaves_ask fun _ => rfl
  · refine Leaves.prepares (.bind (leaves_update fun _ => rfl) fun _ => ?_)
    exact (leaves_write fun _ _ => rfl).bind fun _ => .bind (leaves_ask fun _ => rfl) fun _ =>
      .bind (fun _ => rfl) fun _ => (leaves_lift _).bind fun _ => abstains_advanceTo _
  · exact Leaves.prepares (leaves_pure _)

theorem prepares_onVote (m : SignedBody) : Prepares (onVote ctx m) := by
  refine Leaves.bind_prepares leaves_state fun s => ?_
  split
  · exact Leaves.prepares (leaves_pure _)
  · split
    · exact Leaves.prepares (leaves_pure _)
    · split
      · exact Leaves.prepares (leaves_pure _)
      · refine Leaves.bind_prepares (leaves_update fun _ => rfl) fun _ =>
          Leaves.bind_prepares leaves_state fun s => Leaves.bind_prepares (leaves_lift _) fun made => ?_
        split
        · exact Leaves.prepares (leaves_pure _)
        · exact Leaves.bind_prepares (leaves_ask fun _ => rfl) fun _ =>
            Leaves.bind_prepares (leaves_update fun _ => rfl) fun _ =>
            Leaves.bind_prepares (leaves_ask fun _ => rfl) fun _ => prepares_certify _ _ _

theorem prepares_dispatch (kind : MessageKind) (m : SignedBody) :
    Prepares (Machine.dispatch (v := .basic) ctx kind m) := by
  cases kind with
  | newView => exact Leaves.prepares (abstains_onNewView m)
  | vote => exact prepares_onVote m
  | prepare => exact Leaves.prepares (abstains_onPrepare m)
  | preCommit => exact prepares_onCertified .preCommit m
  | commit => exact prepares_onCertified .commit m
  | decide => exact prepares_onCertified .decide m
  | generic => exact Leaves.prepares fun _ => rfl

/-- A turn leaves the prepared certificate alone or ends in the phase `preCommit`. -/
theorem prepares_reaction {l l' : Life (Memory .basic) σ} {input : Input}
    (h : l.Reaction ctx input l') :
    l'.state.prepared = l.state.prepared ∨ l'.state.phase = .preCommit := by
  cases h with
  | ignored | stopped => exact .inl rfl
  | began => exact .inl (abstains_openRound _)
  | read => exact prepares_dispatch _ _ _
  | advanced => exact .inl (abstains_advanceTo _ _)
  | @sent view receiver letter =>
    have hsend : Abstains (send ctx receiver letter) := leaves_send (fun _ _ => rfl) _ _
    exact .inl (hsend _)

end Preparing

section Covering

variable {l l' : Life Unit σ}

/-- In the phase `preCommit` the prepared certificate is of the current view. -/
theorem Reached.prepared_here (h : Reached ctx l) (hphase : l.state.phase = .preCommit) :
    ∃ qc, l.state.prepared = some qc ∧ qc.view = l.state.view := by
  induction h with
  | born app => cases hphase
  | @move l l' hreached hmove ih =>
    cases hmove with
    | followPreCommit _ _ _ hcheck => exact ⟨_, rfl, (leader_of_checkCertified hcheck).2.2⟩
    | certifyPrepare _ _ hqc =>
      have hview := certificate_view hqc
      exact ⟨_, rfl, hview⟩
    | enter | propose | accept | followCommit | followDecide => cases hphase
    | certifyPreCommit | certifyCommit | certifyUnsigned => cases hphase
    | _ => exact ih hphase

theorem prepared_of_past {l : Life (Memory .basic) σ} (h : Lived ctx l) : ∀ p ∈ l.past,
    p.1.phase = .preCommit → ∃ qc, l.state.prepared = some qc ∧ p.1.view ≤ qc.view := by
  induction h with
  | born app => simp [Life.initial]
  | retouch app _ ih => exact ih
  | @take l input hlived hpermits ih =>
    obtain ⟨hreached, hmoves⟩ := moves_of_lived hlived hpermits
    intro p hp hphase
    rcases List.mem_append.1 hp with hp | hp
    · obtain ⟨qc, hqc, hle⟩ := ih p hp hphase
      obtain ⟨qc', hqc', hle'⟩ := (hreached.onward hmoves).prepared qc hqc
      exact ⟨qc', hqc', UInt64.le_trans hle hle'⟩
    · obtain rfl := List.mem_singleton.1 hp
      obtain ⟨qc, hqc, hview⟩ := (hreached.moves hmoves).prepared_here hphase
      exact ⟨qc, hqc, UInt64.le_of_eq hview.symm⟩

theorem past_of_prepared {l : Life (Memory .basic) σ} (h : Lived ctx l) {qc : Certificate}
    (hqc : l.state.prepared = some qc) :
    ∃ p ∈ l.past, p.1.phase = .preCommit ∧ p.1.view = qc.view := by
  induction h with
  | born app => cases hqc
  | retouch app _ ih => exact ih hqc
  | @take l input hlived hpermits ih =>
    have hreaction : l.Reaction ctx input _ := Life.reaction_step input
    rcases prepares_reaction hreaction with hsame | hphase
    · obtain ⟨p, hp, hpast⟩ := ih (hsame ▸ hqc)
      exact ⟨p, List.mem_append_left _ hp, hpast⟩
    · obtain ⟨hreached, hmoves⟩ := moves_of_lived hlived hpermits
      obtain ⟨qc', hqc', hview⟩ := (hreached.moves hmoves).prepared_here hphase
      obtain rfl : qc' = qc := Option.some.inj (hqc'.symm.trans hqc)
      exact ⟨_, List.mem_append_right _ List.mem_cons_self, hphase, hview.symm⟩

theorem Moves.asked (h : Moves ctx l l') : ∃ es, l'.done = l.done ++ es ∧
    ∀ e ∈ es, ∃ l₁ l₂, Moves ctx l l₁ ∧ Asked ctx l₁ l₂ e := by
  induction h with
  | refl => exact ⟨[], (List.append_nil _).symm, by simp⟩
  | @tail l₁ l₂ hfirst hmove ih =>
    obtain ⟨es, hdone, hes⟩ := ih
    obtain ⟨es', hdone', hes'⟩ := hmove.asked
    refine ⟨es ++ es', by rw [hdone', hdone, List.append_assoc], fun e he => ?_⟩
    rcases List.mem_append.1 he with he | he
    · exact hes e he
    · exact ⟨l₁, l₂, hfirst, hes' e he⟩

/-- A NewView has a certificate no older than the one prepared before the turn. -/
theorem le_justify_of_sent {l : Life (Memory .basic) σ} (h : Lived ctx l) {input : Input}
    (hpermits : l.Permits input) {receiver : Member} {x : Letter}
    (hx : .send receiver x ∈ (l.machine.step ctx input).effects) (hkind : x.kind = .newView)
    {qc : Certificate} (hqc : l.state.prepared = some qc) : qc.view ≤ x.body.justify.view := by
  obtain ⟨hreached, hmoves⟩ := moves_of_lived h hpermits
  obtain ⟨es, hdone, hes⟩ := hmoves.asked
  have hsame : es = (l.machine.step ctx input).effects := (List.append_cancel_left hdone).symm
  obtain ⟨l₁, l₂, hfirst, hasked⟩ := hes _ (hsame ▸ hx)
  obtain ⟨qc', hqc', hle⟩ := (hreached.onward hfirst).prepared qc hqc
  cases hasked with
  | report _ hwrote =>
    have hjustify : x.body.justify = l₁.state.highCertificate := by rw [hwrote.body_eq]; rfl
    rw [hjustify, State.highCertificate, hqc']
    exact hle
  | votePrepare _ _ _ _ hwrote => simp [hwrote.kind_eq] at hkind
  | votePreCommit _ _ _ hwrote | voteCommit _ _ _ hwrote => simp [hwrote.kind_eq] at hkind

/-- The prepared certificate is no older than the lock. -/
def Covered (s : State) : Prop :=
  ∀ lock, s.locked = some lock → ∃ qc, s.prepared = some qc ∧ lock.view ≤ qc.view

/-- The prepared certificate is no older than the lock if and only if the core was in the phase
`preCommit` of the lock's view or of a later one at the end of some turn. In that case, the
certificates in its next NewViews are no older than the lock either. -/
theorem covered_iff {l : Life (Memory .basic) σ} (h : Lived ctx l) :
    (Covered l.state ↔ ∀ lock, l.state.locked = some lock →
      ∃ p ∈ l.past, p.1.phase = .preCommit ∧ lock.view ≤ p.1.view) ∧
    (Covered l.state → ∀ input, l.Permits input → ∀ receiver x,
      .send receiver x ∈ (l.machine.step ctx input).effects → x.kind = .newView →
        ∀ lock, l.state.locked = some lock → lock.view ≤ x.body.justify.view) := by
  refine ⟨⟨fun hcovered lock hlock => ?_, fun hpast lock hlock => ?_⟩,
    fun hcovered input hpermits receiver x hx hkind lock hlock => ?_⟩
  · obtain ⟨qc, hqc, hle⟩ := hcovered lock hlock
    obtain ⟨p, hp, hphase, hview⟩ := past_of_prepared h hqc
    exact ⟨p, hp, hphase, hview ▸ hle⟩
  · obtain ⟨p, hp, hphase, hle⟩ := hpast lock hlock
    obtain ⟨qc, hqc, hle'⟩ := prepared_of_past h p hp hphase
    exact ⟨qc, hqc, UInt64.le_trans hle hle'⟩
  · obtain ⟨qc, hqc, hle⟩ := hcovered lock hlock
    exact UInt64.le_trans hle (le_justify_of_sent h hpermits hx hkind hqc)

open Legible in
/-- A follower that received all announcements of a view sends a NewView with a certificate as
recent as its lock. -/
theorem covered_of_follower : ∃ lock, (lockedRun 0).state.locked = some lock ∧
    (∃ qc, (lockedRun 0).state.prepared = some qc ∧ lock.view ≤ qc.view) ∧
    ∃ receiver x,
      .send receiver x ∈ ((lockedRun 0).machine.step (housed.context 0) .timeout).effects ∧
      x.kind = .newView ∧ lock.view ≤ x.body.justify.view := by
  have hpast : ∃ p ∈ (lockedRun 0).past, p.1.phase = .preCommit ∧
      p.1.view = (lockedRun 0).state.view := by
    decide +kernel
  have hsent : ((lockedRun 0).machine.step (housed.context 0) .timeout).effects.any fun
      | .send _ x => x.kind = .newView
      | _ => false := by
    decide +kernel
  obtain ⟨lock, hlock, hview⟩ := Option.map_eq_some_iff.1 lockedRun_spec
  have hlived : Lived (housed.context 0) (lockedRun 0) := (Cast.reachable_play ..).lived 0
  obtain ⟨hiff, hnext⟩ := covered_iff hlived
  obtain ⟨p, hp, hphase, hpview⟩ := hpast
  have hcovered : Covered (lockedRun 0).state := hiff.2 fun lock' hlock' => by
    obtain rfl : lock = lock' := Option.some.inj (hlock.symm.trans hlock')
    exact ⟨p, hp, hphase, UInt64.le_of_eq (hview.trans hpview.symm)⟩
  obtain ⟨e, he, htest⟩ := List.any_eq_true.1 hsent
  cases e with
  | send receiver x =>
    have hkind : x.kind = .newView := of_decide_eq_true htest
    exact ⟨lock, hlock, hcovered lock hlock, receiver, x, he, hkind,
      hnext hcovered .timeout trivial receiver x he hkind lock hlock⟩
  | _ => cases htest

end Covering

end Concord.Core.Basic
