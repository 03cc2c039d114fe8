import Concord.Proofs.Basic.Locks

/-!
The payloads that a core of the five-phase protocol votes for, certifies, holds certificates for or
delivers in a view. The certificate in an announcement is compared with the proposal of the view
only if the core has one. So there is one such payload in a view with a proposal, and there may be
several in a view without.
-/

namespace Concord.Core.Basic

open Handler Relation

variable {σ : Type} {ctx : Context σ} {l l' : Life Unit σ}

/-- The view and payload of a vote that is signed, a certificate that is made, or a delivery. -/
def stand? : Effect → Option (View × Payload)
  | .wrote letter =>
    if letter.kind = .vote then some (letter.body.view, letter.body.payload) else none
  | .certified qc => some (qc.view, qc.payload)
  | .deliver view payload => some (view, payload)
  | _ => none

def WasIn (l : Life Unit σ) (s : State) : Prop := s = l.state ∨ ∃ memory, (s, memory) ∈ l.past

/-- The core voted for, certified, held a certificate for, or delivered `payload` in `view`. -/
inductive StandsFor (l : Life Unit σ) (view : View) (payload : Payload) : Prop
  | asked {e : Effect} : e ∈ l.done → stand? e = some (view, payload) → StandsFor l view payload
  | held {s : State} {qc : Certificate} :
      WasIn l s → s.prepared = some qc ∨ s.locked = some qc → qc.view = view →
      qc.payload = payload → StandsFor l view payload

theorem wasIn_now (l : Life (Memory .basic) σ) : WasIn l l.state := .inl rfl

theorem StandsFor.of_lock {l : Life (Memory .basic) σ} {lock : Certificate}
    (h : l.state.locked = some lock) : StandsFor l lock.view lock.payload :=
  .held (wasIn_now l) (.inr h) rfl rfl

/-- The view is that of the state, the phase is not the first, and `payload` is that of the
proposal, if there is one. -/
structure Fitting (s : State) (view : View) (payload : Payload) : Prop where
  view : view = s.view
  rank : 0 < rank s.phase
  proposal : ∀ b, s.proposal = some b → payload = b.payload

theorem payload_of_checkCertified {s : State} {kind : MessageKind} {m : SignedBody}
    (h : checkCertified ctx s kind m = .ok ()) {b : Body} (hb : s.proposal = some b) :
    m.justify.payload = b.payload := by
  unfold checkCertified at h
  simp only at h
  split at h
  · cases h
  · split at h
    · cases h
    · split at h
      · cases h
      · next hother => simpa [hb] using hother

theorem Reached.rank_pos (h : Reached ctx l) {b : Body} (hb : l.state.proposal = some b) :
    0 < rank l.state.phase := by
  induction h with
  | born app => cases hb
  | @move l l' hreached hmove ih =>
    cases hmove with
    | begin | enter => cases hb
    | propose | accept | followPreCommit | followCommit | followDecide => exact Nat.zero_lt_succ _
    | certifyPrepare | certifyPreCommit | certifyCommit | certifyUnsigned =>
      exact Nat.zero_lt_succ _
    | _ => exact ih hb

theorem Reached.proposal_cases (h : Reached ctx l) (hmove : Move ctx l l') :
    (l'.state.view = l.state.view ∧ l'.state.proposal = l.state.proposal) ∨
    (l.state.view < l'.state.view ∧ l'.state.proposal = none) ∨
    (here l < place l'.state.view .prepare ∧ l'.state.proposal.isSome) := by
  cases hmove with
  | begin _ hphase =>
    refine .inl ⟨rfl, ?_⟩
    cases hb : l.state.proposal with
    | none => rfl
    | some b => simpa [hphase, rank] using h.rank_pos hb
  | enter hnext => exact .inr (.inl ⟨View.lt_next hnext, rfl⟩)
  | propose _ hphase =>
    exact .inr (.inr ⟨place_lt_of_rank rfl (by simp [hphase, rank]), rfl⟩)
  | accept _ hview hphase =>
    refine .inr (.inr ⟨?_, rfl⟩)
    rw [Life.after_state, State.jump_view hview]
    rcases UInt64.lt_or_eq_of_le hview with hlt | heq
    · exact place_lt_of_view hlt _ _
    · exact place_lt_of_rank heq (by simp [hphase heq.symm, rank])
  | _ => exact .inl (by simp)

section Standing

variable {s s' : State} {view : View} {payload : Payload}

theorem fitting_of_checkCertified {kind : MessageKind} {m : SignedBody}
    (h : checkCertified ctx s kind m = .ok ()) (hview : s'.view = s.view)
    (hproposal : s'.proposal = s.proposal) (hrank : 0 < rank s'.phase) :
    Fitting s' s.view m.justify.payload :=
  ⟨hview.symm, hrank, fun _ hb => payload_of_checkCertified h (hproposal ▸ hb)⟩

theorem fitting_of_proposal {proposal : Body} (h : s.proposal = some proposal)
    (hview : s'.view = s.view) (hsame : s'.proposal = s.proposal) (hrank : 0 < rank s'.phase) :
    Fitting s' s.view proposal.payload where
  view := hview.symm
  rank := hrank
  proposal b hb := by
    obtain rfl := Option.some.inj (h.symm.trans (hsame ▸ hb))
    rfl

theorem stand?_certified {qc : Certificate}
    (h : certificate? ctx s payload = .ok (some qc)) :
    stand? (.certified qc) = some (s.view, payload) := by
  rw [stand?, certificate_view h, certificate_payload h]

def Suits (s : State) (e : Effect) : Prop :=
  ∀ view payload, stand? e = some (view, payload) → Fitting s view payload

theorem suits_none {e : Effect} (h : stand? e = none) : Suits s e := fun _ _ hstand => by
  rw [h] at hstand
  cases hstand

theorem suits_some {e : Effect} (h : stand? e = some (view, payload))
    (hfitting : Fitting s view payload) : Suits s e := fun _ _ hstand => by
  rw [h] at hstand
  cases hstand
  exact hfitting

theorem suits_wrote {kind : MessageKind} {body : Body} {letter : Letter}
    (hwrote : ctx.Wrote kind body letter) (hkind : kind ≠ .vote) : Suits s (.wrote letter) :=
  suits_none (by simp [stand?, hwrote.kind_eq, hkind])

theorem suits_resetTimer : Suits s .resetTimer := suits_none rfl

theorem suits_voting {phase : Phase} (hfitting : Fitting s view payload) :
    ∀ e ∈ .resetTimer :: ballot ctx view phase payload, Suits s e := by
  refine List.forall_mem_cons.2 ⟨suits_resetTimer, Context.forall_posted ?_ ?_⟩
  · intro letter hwrote
    refine suits_some ?_ hfitting
    simp [stand?, hwrote.kind_eq, hwrote.body_eq, Body.plain]
  · exact fun _ _ _ => suits_none rfl

theorem suits_announced {kind : MessageKind} {body : Body} (hkind : kind ≠ .vote) :
    ∀ e ∈ ctx.announced kind body, Suits s e :=
  Context.forall_announced (fun _ hwrote => suits_wrote hwrote hkind) fun _ _ => suits_none rfl

theorem suits_certifying {qc : Certificate} {es : List Effect}
    (hqc : certificate? ctx s payload = .ok (some qc)) (hfitting : Fitting s' s.view payload)
    (hes : ∀ e ∈ es, Suits s' e) : ∀ e ∈ .certified qc :: .resetTimer :: es, Suits s' e := by
  simp only [List.forall_mem_cons]
  exact ⟨suits_some (stand?_certified hqc) hfitting, suits_resetTimer, hes⟩

theorem Reached.suits (h : Reached ctx l) (hmove : Move ctx l l') :
    ∃ es, l'.done = l.done ++ es ∧ ∀ e ∈ es, Suits l'.state e := by
  cases hmove with
  | hear | note | retouch | stop => exact ⟨[], by simp, by simp⟩
  | keep | squander | log => exact ⟨[], by simp, by simp⟩
  | begin | enter => exact ⟨_, rfl, by simpa using suits_resetTimer⟩
  | report =>
    exact ⟨_, rfl, Context.forall_posted (fun _ hwrote => suits_wrote hwrote nofun)
      fun _ _ _ => suits_none rfl⟩
  | propose _ _ _ _ _ _ hwrote =>
    refine ⟨_, rfl, ?_⟩
    simp only [List.forall_mem_cons]
    exact ⟨suits_wrote hwrote nofun, suits_resetTimer, suits_none rfl, List.forall_mem_nil _⟩
  | @accept m _ hview =>
    refine ⟨_, rfl, suits_voting ⟨(State.jump_view hview).symm, Nat.zero_lt_succ _, ?_⟩⟩
    rintro b ⟨⟩
    rfl
  | followPreCommit _ _ _ hcheck =>
    exact ⟨_, rfl, suits_voting (fitting_of_checkCertified hcheck rfl rfl (Nat.zero_lt_succ _))⟩
  | followCommit _ _ _ hcheck =>
    exact ⟨_, rfl, suits_voting (fitting_of_checkCertified hcheck (State.lock_view _ _)
      (State.lock_proposal _ _) (Nat.zero_lt_succ _))⟩
  | followDecide _ _ _ hcheck =>
    refine ⟨_, rfl, ?_⟩
    simp only [List.forall_mem_cons]
    exact ⟨suits_resetTimer, suits_some rfl (fitting_of_checkCertified hcheck rfl rfl
      (Nat.zero_lt_succ _)), suits_none rfl, List.forall_mem_nil _⟩
  | certifyPrepare _ hproposal hqc =>
    exact ⟨_, rfl, suits_certifying hqc (fitting_of_proposal hproposal rfl rfl
      (Nat.zero_lt_succ _)) (suits_announced nofun)⟩
  | certifyPreCommit _ hproposal hqc =>
    exact ⟨_, rfl, suits_certifying hqc (fitting_of_proposal hproposal (State.lock_view _ _)
      (State.lock_proposal _ _) (Nat.zero_lt_succ _)) (suits_announced nofun)⟩
  | certifyCommit _ hproposal hqc _ hwrote =>
    refine ⟨_, rfl, suits_certifying hqc (fitting_of_proposal hproposal rfl rfl
      (Nat.zero_lt_succ _)) ?_⟩
    simp only [List.forall_mem_cons]
    exact ⟨suits_wrote hwrote nofun, suits_none rfl,
      suits_some rfl (fitting_of_proposal hproposal rfl rfl (Nat.zero_lt_succ _)),
      List.forall_mem_nil _⟩
  | certifyUnsigned _ hproposal hqc =>
    exact ⟨_, rfl, suits_certifying hqc (fitting_of_proposal hproposal rfl rfl
      (Nat.zero_lt_succ _)) (List.forall_mem_nil _)⟩
  | certifyIdle _ hproposal hqc =>
    exact ⟨_, rfl, suits_certifying hqc (fitting_of_proposal hproposal rfl rfl
      (h.rank_pos hproposal)) (List.forall_mem_nil _)⟩

theorem Opens.fitting {kind : MessageKind} {qc : Certificate} (h : Opens ctx l l' kind qc)
    (hrank : 0 < rank l'.state.phase) : Fitting l'.state qc.view qc.payload := by
  rw [h.gains.view]
  cases h.gains with
  | heard _ _ hcheck => exact fitting_of_checkCertified hcheck h.view h.proposal hrank
  | made _ hproposal hqc =>
    rw [certificate_payload hqc]
    exact fitting_of_proposal hproposal h.view h.proposal hrank

theorem Move.fitting_held (h : Move ctx l l') {qc : Certificate}
    (hqc : l'.state.prepared = some qc ∨ l'.state.locked = some qc) :
    (l.state.prepared = some qc ∨ l.state.locked = some qc) ∨
      Fitting l'.state qc.view qc.payload := by
  rcases hqc with hqc | hqc
  · rcases h.prepared_cases with hsame | ⟨qc', hnew, hopens⟩
    · exact .inl (.inl (hsame.symm.trans hqc))
    · obtain rfl : qc' = qc := Option.some.inj (hnew.symm.trans hqc)
      exact .inr (hopens.fitting (by simp [← Option.some.inj hopens.phase, rank]))
  · rcases h.locked_cases with hsame | ⟨qc', hnew, hopens⟩
    · exact .inl (.inr (hsame.symm.trans hqc))
    · obtain rfl : qc' = qc := Option.some.inj (hnew.symm.trans hqc)
      exact .inr (hopens.fitting (by simp [← Option.some.inj hopens.phase, rank]))

theorem Move.wasIn (h : Move ctx l l') (hs : WasIn l' s) : s = l'.state ∨ WasIn l s := by
  rcases hs with hs | ⟨memory, hpast⟩
  · exact .inl hs
  · cases h with
    | note =>
      rcases List.mem_append.1 hpast with hpast | hpast
      · exact .inr (.inr ⟨memory, hpast⟩)
      · exact .inl (congrArg Prod.fst (List.mem_singleton.1 hpast))
    | _ => exact .inr (.inr ⟨memory, hpast⟩)

/-- What a core comes to stand for in a move fits the state after the move. -/
theorem Reached.stands (h : Reached ctx l) (hmove : Move ctx l l')
    (hstands : StandsFor l' view payload) :
    StandsFor l view payload ∨ Fitting l'.state view payload := by
  cases hstands with
  | asked he hstand =>
    obtain ⟨es, hdone, hes⟩ := h.suits hmove
    rw [hdone, List.mem_append] at he
    rcases he with he | he
    · exact .inl (.asked he hstand)
    · exact .inr (hes _ he _ _ hstand)
  | held hs hqc hview hpayload =>
    subst hview hpayload
    rcases hmove.wasIn hs with rfl | hs
    · exact (hmove.fitting_held hqc).imp_left fun hqc => .held (.inl rfl) hqc rfl rfl
    · exact .inl (.held hs hqc rfl rfl)

end Standing

/-- A core stands for nothing in a later view than its own, and in a view in which it ever had a
proposal it stands only for the payload of that proposal. -/
structure Single (l : Life Unit σ) : Prop where
  started : ∀ {view payload}, StandsFor l view payload → place view .prepare ≤ here l
  proposed : ∀ {s b}, WasIn l s → s.proposal = some b →
    s.view < l.state.view ∨ s.view = l.state.view ∧ l.state.proposal = some b
  single : ∀ {s b payload}, WasIn l s → s.proposal = some b → StandsFor l s.view payload →
    payload = b.payload

theorem Fitting.started {view : View} {payload : Payload} (h : Fitting l.state view payload) :
    place view .prepare ≤ here l := by
  rw [h.view]
  exact Nat.add_le_add_left h.rank _

theorem Single.move (h : Single l) (hreached : Reached ctx l) (hmove : Move ctx l l') :
    Single l' := by
  have hproposal := hreached.proposal_cases hmove
  have hproposed : ∀ {s b}, WasIn l' s → s.proposal = some b →
      s.view < l'.state.view ∨ s.view = l'.state.view ∧ l'.state.proposal = some b := by
    intro s b hs hb
    rcases hmove.wasIn hs with rfl | hs
    · exact .inr ⟨rfl, hb⟩
    · rcases h.proposed hs hb with hlt | ⟨heq, hheld⟩
      · exact .inl (UInt64.lt_of_lt_of_le hlt hmove.le_view)
      · rw [heq]
        rcases hproposal with ⟨hview, hsame⟩ | ⟨hlater, -⟩ | ⟨hfresh, -⟩
        · exact .inr ⟨hview.symm, hsame.trans hheld⟩
        · exact .inl hlater
        · -- A proposal was held in the old view, so the fresh one is of another.
          have hhere : place l.state.view .prepare ≤ here l :=
            Nat.add_le_add_left (hreached.rank_pos hheld) _
          exact .inl (lt_of_place_lt (Nat.lt_of_le_of_lt hhere hfresh))
  refine ⟨fun hstands => ?_, hproposed, fun {s b payload} hs hb hstands => ?_⟩
  · rcases hreached.stands hmove hstands with hold | hnew
    · exact Nat.le_trans (h.started hold) (hmove.here_le hreached.genuine)
    · exact hnew.started
  · rcases hreached.stands hmove hstands with hold | hnew
    · rcases hmove.wasIn hs with rfl | hs
      · rcases hproposal with ⟨hview, hsame⟩ | ⟨-, hnone⟩ | ⟨hfresh, -⟩
        · exact h.single (.inl rfl) (hsame ▸ hb) (hview ▸ hold)
        · rw [hnone] at hb
          cases hb
        -- A fresh proposal is past all that the core has stood for so far.
        · exact absurd (h.started hold) (Nat.not_le.2 hfresh)
      · exact h.single hs hb hold
    · rcases hproposed hs hb with hlt | ⟨-, hheld⟩
      · exact absurd (hnew.view ▸ hlt) (UInt64.lt_irrefl _)
      · exact hnew.proposal b hheld

theorem Reached.single (h : Reached ctx l) : Single l := by
  induction h with
  | born app =>
    have hinitial : ∀ {s}, WasIn (Life.initial ctx.scheme .basic app) s → s = State.initial := by
      rintro s (rfl | ⟨memory, hpast⟩)
      · rfl
      · cases hpast
    refine ⟨fun hstands => ?_, fun hs hb => ?_, fun hs hb _ => ?_⟩
    · cases hstands with
      | asked he => cases he
      | held hs hqc => simp [hinitial hs, State.initial] at hqc
    · simp [hinitial hs, State.initial] at hb
    · simp [hinitial hs, State.initial] at hb
  | move hreached hmove ih => exact ih.move hreached hmove

/-- If a core ever had a proposal in a view, every payload that it votes for, certifies, holds a
certificate for or delivers in that view is the payload of the proposal. -/
theorem one_payload {l : Life (Memory .basic) σ} (h : Lived ctx l) {s : State} (hs : WasIn l s)
    {b : Body} (hb : s.proposal = some b) {payload : Payload}
    (hstands : StandsFor l s.view payload) : payload = b.payload :=
  (reached_of_lived h).2.single.single hs hb hstands

open Legible in
/-- A follower that is locked in a view that it decides. -/
theorem one_payload_of_follower : ∃ b lock, (lockedRun 0).state.proposal = some b ∧
    (lockedRun 0).state.locked = some lock ∧ lock.view = (lockedRun 0).state.view ∧
    lock.payload = b.payload := by
  obtain ⟨lock, hlock, hview⟩ := Option.map_eq_some_iff.1 lockedRun_spec
  have hproposal : (lockedRun 0).state.proposal.isSome := by decide +kernel
  obtain ⟨b, hb⟩ := Option.isSome_iff_exists.1 hproposal
  have hlived : Lived (housed.context 0) (lockedRun 0) := (Cast.reachable_play ..).lived 0
  have hstands := StandsFor.of_lock hlock
  rw [hview] at hstands
  exact ⟨b, lock, hb, hlock, hview, one_payload hlived (wasIn_now _) hb hstands⟩

section Divided

open Legible

def backing (phase : Phase) (payload : Payload) : Certificate :=
  .ofVotes ⟨phase, 0, payload, Digest.zero⟩
    (List.ofFn fun i : Fin 3 => ⟨key i, stamp (key i) (payload.hash scheme)⟩)

def announcement (kind : MessageKind) (phase : Phase) (qc : Certificate) : Input :=
  match Letter.build scheme (signer 1) kind (Body.plain 0 phase qc.payload qc) with
  | .ok letter => .feed letter.envelope
  | .error _ => .shutdown

theorem permits_announcement (l : Life (Memory .basic) Unit) (kind : MessageKind) (phase : Phase)
    (qc : Certificate) : l.Permits (announcement kind phase qc) := by
  unfold announcement
  split
  · trivial
  · trivial

/-- A core without a proposal receives a PreCommit, a Commit and a Decide for three different
payloads. -/
def dividedRun (ctx : Context Unit) : Life (Memory .basic) Unit :=
  [.begin, announcement .preCommit .preCommit (backing .prepare (payload 1)),
    announcement .commit .commit (backing .preCommit (payload 2)),
    announcement .decide .decide (backing .commit (payload 3))].foldl
      (Life.take ctx) (Life.initial scheme .basic ())

/-- A core that had no proposal votes for one payload, is locked on a second and delivers a third,
all in view 0. -/
theorem payloads_divided : ∃ l : Life (Memory .basic) Unit, Lived (housed.context 0) l ∧
    (∃ x ∈ l.written, x.kind = .vote ∧ x.body.view = 0 ∧ x.body.payload = payload 1) ∧
    (∃ qc, l.state.prepared = some qc ∧ qc.view = 0 ∧ qc.payload = payload 1) ∧
    (∃ qc, l.state.locked = some qc ∧ qc.view = 0 ∧ qc.payload = payload 2) ∧
    .deliver 0 (payload 3) ∈ l.done ∧ [payload 1, payload 2, payload 3].Nodup := by
  have hlived : Lived (housed.context 0) (dividedRun (housed.context 0)) :=
    .take _ (.take _ (.take _ (.take .begin (.born ()) trivial) (permits_announcement ..))
      (permits_announcement ..)) (permits_announcement ..)
  refine ⟨_, hlived, ?_, ⟨backing .prepare (payload 1), ?_⟩, ⟨backing .preCommit (payload 2), ?_⟩, ?_⟩
  all_goals decide +kernel

end Divided

end Concord.Core.Basic
