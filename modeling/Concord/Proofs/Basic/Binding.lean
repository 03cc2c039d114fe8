import Concord.Proofs.Basic.Cluster
import Concord.Proofs.Basic.Locks

/-!
The locking rule of the five-phase protocol. It compares the lock with the view of the proposal
instead of the view of the certificate that the proposal is built on. Every proposal that is checked
is of a later view than the lock, so the rule never refuses one. Without traitors the leaders
respect the locks, except for a lock of view 0 and a proposal on the starting certificate, which is
of view 0 too.
-/

namespace Concord.Core.Basic

open Handler

variable {σ : Type} {ctx : Context σ}

/-- The core is running, the envelope is a Prepare that passes all stateless checks, and its
proposal is acceptable. -/
structure Accepts (ctx : Context σ) (l : Life (Memory .basic) σ) (envelope : Envelope)
    (m : SignedBody) : Prop where
  running : l.state.status = .running
  kind : envelope.kind = .prepare
  received : ctx.receive envelope = .ok m
  acceptable : Acceptable ctx m l.turn

instance (ctx : Context σ) (l : Life (Memory .basic) σ) (envelope : Envelope) (m : SignedBody) :
    Decidable (Accepts ctx l envelope m) :=
  decidable_of_iff (l.state.status = .running ∧ envelope.kind = .prepare ∧
      ctx.receive envelope = .ok m ∧ l.state.view ≤ m.view ∧
      (m.view = l.state.view → l.state.phase = .newView) ∧
      ctx.checkProposal l.state l.app m (extendsLock ctx m) = .ok ())
    ⟨fun ⟨hrunning, hkind, hreceived, hacceptable⟩ => ⟨hrunning, hkind, hreceived, hacceptable⟩,
      fun h => ⟨h.running, h.kind, h.received, h.acceptable⟩⟩

section Cores

variable {l : Life (Memory .basic) σ} {envelope : Envelope} {m : SignedBody}

/-- An accepted proposal becomes the core's proposal and is voted for, and the lock stays the
same. -/
theorem take_of_accepts (h : Accepts ctx l envelope m) :
    (l.take ctx (.feed envelope)).state =
      { l.state.jump m.view with proposal := some m.body, phase := .prepare } ∧
    (l.take ctx (.feed envelope)).done =
      l.done ++ .resetTimer :: ballot ctx m.view .prepare m.body.payload := by
  have hturn : (exec (Machine.dispatch (v := .basic) ctx envelope.kind m) l.turn).2 =
      { l.turn with
        state := { l.state.jump m.view with proposal := some m.body, phase := .prepare }
        effects := .resetTimer :: ballot ctx m.view .prepare m.body.payload } := by
    rw [h.kind]
    rcases exec_onPrepare ctx m l.turn with ⟨-, hexec⟩ | ⟨hrefused, -⟩
    · exact hexec
    · exact absurd h.acceptable hrefused
  rw [Life.take, Life.changed_feed h.running h.received, hturn]
  exact ⟨rfl, rfl⟩

theorem checkProposal_of_later {s : State} {app : σ} {extendsLock : Certificate → Bool}
    (h : ∀ lock, s.locked = some lock → lock.view < m.view) :
    ctx.checkProposal s app m extendsLock =
      ctx.checkProposal { s with locked := none } app m extendsLock := by
  unfold Context.checkProposal
  cases hlock : s.locked with
  | none => rfl
  | some lock =>
    have hlater : ¬ m.view ≤ lock.view := UInt64.not_le.2 (h lock hlock)
    simp [hlater]

def unlocked (l : Life (Memory .basic) σ) : Life (Memory .basic) σ :=
  { l with state := { l.state with locked := none } }

/-- Acceptance does not depend on the lock. -/
theorem accepts_iff_unlocked (hseated : ctx.Seated) (h : Lived ctx l) :
    Accepts ctx l envelope m ↔ Accepts ctx (unlocked l) envelope m := by
  have hsecure := (reached_of_lived h).2.secure hseated
  have hsame : Acceptable ctx m l.turn ↔ Acceptable ctx m (unlocked l).turn := by
    refine and_congr_right fun hview => and_congr_right fun hfree => ?_
    rw [Life.turn_state, checkProposal_of_later fun lock hlock => hsecure.lock_lt hlock hview hfree]
    rfl
  exact ⟨fun h => ⟨h.running, h.kind, h.received, hsame.1 h.acceptable⟩,
    fun h => ⟨h.running, h.kind, h.received, hsame.2 h.acceptable⟩⟩

/-- The core made the locked certificate, or the leader of its view sent it in a Commit. -/
inductive Source (ctx : Context σ) (l : Life Unit σ) (lock : Certificate) : Prop
  | made : .certified lock ∈ l.done → lock.phase = .preCommit → Source ctx l lock
  | heard {m : SignedBody} :
      ⟨.commit, m⟩ ∈ l.heard → m.signer = (ctx.leader m.view).key → m.justify = lock →
      Source ctx l lock

theorem source_of_locked {l : Life Unit σ} (h : Reached ctx l) {lock : Certificate}
    (hlock : l.state.locked = some lock) : Source ctx l lock := by
  induction h with
  | born app => cases hlock
  | @move l l' _ hmove ih =>
    rcases hmove.locked_cases with hsame | ⟨qc, hnew, hopens⟩
    · cases ih (hsame ▸ hlock) with
      | made hqc hphase => exact .made (hmove.done_subset hqc) hphase
      | heard hm hsigner hjustify => exact .heard (hmove.heard_subset hm) hsigner hjustify
    · obtain rfl : qc = lock := Option.some.inj (hnew.symm.trans hlock)
      have hphase := hopens.gains.phase
      cases hopens.gains with
      | heard hm hview hcheck =>
        have hleader := (leader_of_checkCertified hcheck).1
        exact .heard (hmove.heard_subset hm) (hview ▸ hleader.symm) rfl
      | made _ _ _ _ hdone => exact .made hdone hphase

end Cores

/-- The proposal is built on a certificate of a later view than the lock, or on the locked
payload. -/
def Respects (scheme : Crypto.Scheme) (b : Body) (lock : Certificate) : Prop :=
  lock.view < b.justify.view ∨ b.payload.parent = lock.payload.hash scheme

section Groups

variable {n : Nat} {g : Group n σ} {w : World n .basic σ}

/-- Without traitors, a lock is for the proposal of its view, and some core made a certificate of
the preCommit phase in that view. -/
theorem certified_of_locked (h : Reachable g ∅ w) {i : Fin n} {lock : Certificate}
    (hlock : (w i).state.locked = some lock) :
    (∃ b ∈ w.proposals lock.view, b.payload = lock.payload) ∧
      ∃ j, Certified (w j) .preCommit lock.view := by
  cases source_of_locked (reached_of_reachable h i) hlock with
  | made hqc hphase => exact ⟨proposal_of_certified h hqc, i, lock, hqc, hphase, rfl⟩
  | @heard m hm hsigner hjustify =>
    rw [Group.context_leader] at hsigner
    obtain ⟨hphase, -, hqc⟩ := opening_of_heard h hm (.inr (.inl rfl)) hsigner
    subst hjustify
    exact ⟨proposal_of_certified h hqc, _, _, hqc, hphase, rfl⟩

/-- Without traitors, every proposal of a later view respects the lock, unless the lock is of view 0
and the proposal is built on the starting certificate. -/
theorem respects_of_proposal (h : Reachable g ∅ w) {i j : Fin n} {lock : Certificate} {b : Body}
    (hlock : (w i).state.locked = some lock) (hb : b ∈ (w j).proposals) (hlt : lock.view < b.view) :
    Respects g.scheme b lock ∨
      lock.view = 0 ∧ b.justify.subject = Certificate.genesis.subject := by
  obtain ⟨⟨b₀, hb₀, hpayload⟩, k, hcertified⟩ := certified_of_locked h hlock
  rcases UInt64.lt_or_eq_of_le (le_justify_of_backed h hcertified hb hlt) with hlater | hsame
  · exact .inl (.inl hlater)
  · rcases parent_of_proposal h hb with hgenesis | ⟨-, -, parent, hparent, hlink⟩
    · exact .inr ⟨hsame.trans (congrArg Subject.view hgenesis), hgenesis⟩
    · obtain rfl := h.unique_proposal hb₀ (hsame ▸ hparent)
      exact .inl (.inr (by rw [hlink, hpayload]))

theorem proposal_of_accepts (h : Reachable g ∅ w) {i : Fin n} {envelope : Envelope}
    {m : SignedBody} (hadmits : Admits g ∅ w i (.feed envelope))
    (haccepts : Accepts (g.context i) (w i) envelope m) : ∃ j, m.body ∈ (w j).proposals := by
  cases hadmits with
  | forged hsome => exact absurd hsome (by simp)
  | @sent j x _ hsent hfits =>
    have hx : ⟨x.envelope.kind, m⟩ = x := by
      refine (g.context i).heard_envelope hfits ?_
      simp [Context.heard, haccepts.received]
    have hkind : x.kind = .prepare := haccepts.kind
    have hletter := (h.signer_of_sent hsent).2.2
    have hbroadcast := h.broadcast_of_letter hletter (by rw [hkind]; rfl)
    exact ⟨j, Life.mem_proposals.2 ⟨x, hbroadcast, .inl hkind, by rw [← hx]; rfl⟩⟩

/-- For an envelope that a member can receive in a reachable run, acceptance of its proposal does
not depend on the lock, and an accepted proposal is of a later view than the lock. Without traitors
the proposal respects the lock, unless the lock is of view 0 and the proposal is built on the
starting certificate. -/
theorem bound_of_accepts {traitors : Finset (Fin n)} (h : Reachable g traitors w) {i : Fin n}
    {envelope : Envelope} {m : SignedBody} (hadmits : Admits g traitors w i (.feed envelope)) :
    (Accepts (g.context i) (w i) envelope m ↔
      Accepts (g.context i) (unlocked (w i)) envelope m) ∧
    ∀ lock, (w i).state.locked = some lock → Accepts (g.context i) (w i) envelope m →
      lock.view < m.view ∧ (traitors = ∅ → Respects g.scheme m.body lock ∨
        lock.view = 0 ∧ m.justify.subject = Certificate.genesis.subject) := by
  refine ⟨accepts_iff_unlocked (g.seated_context i) (h.lived i), fun lock hlock haccepts => ?_⟩
  obtain ⟨hview, hfree, -⟩ := haccepts.acceptable
  have hlt := ((reached_of_reachable h i).secure (g.seated_context i)).lock_lt hlock hview hfree
  refine ⟨hlt, ?_⟩
  rintro rfl
  obtain ⟨j, hb⟩ := proposal_of_accepts h hadmits haccepts
  exact respects_of_proposal h hlock hb hlt

section Samples

open Legible Cast

/-- A run of four members in which view 1 is decided and the proposal of view 2 was sent. -/
def proposedRun : Cast 4 .basic Unit :=
  play housed .basic () ([.begin 0, .begin 2, .begin 3, .timeout 0, .timeout 2, .timeout 3] ++
    decision 2 3 0 ++ [.timeout 0, .timeout 3, .deliver 2 3 0, .deliver 0 3 0])

/-- A locked member accepts the proposal of view 2, which respects its lock. -/
theorem bound_of_second_proposal : ∃ envelope m lock,
    Accepts (housed.context 0) (proposedRun.world 0) envelope m ∧
    (proposedRun.world 0).state.locked = some lock ∧ lock.view = 1 ∧ lock.view < m.view ∧
    Respects housed.scheme m.body lock := by
  have hrun : proposedRun.input? housed (.deliver 3 0 0) =
        some (0, .feed ((proposedRun.world 3).letters.getLastD default).envelope) ∧
      Accepts (housed.context 0) (proposedRun.world 0)
        ((proposedRun.world 3).letters.getLastD default).envelope
        ((proposedRun.world 3).letters.getLastD default).signed ∧
      (proposedRun.world 0).state.locked.map Certificate.view = some 1 := by
    decide +kernel
  obtain ⟨hinput, haccepts, hlocked⟩ := hrun
  obtain ⟨lock, hlock, hview⟩ := Option.map_eq_some_iff.1 hlocked
  have hreachable : Reachable housed ∅ proposedRun.world := reachable_play ..
  obtain ⟨-, hlocks⟩ := bound_of_accepts hreachable (admits_of_input? hinput)
  obtain ⟨hlt, hbound⟩ := hlocks lock hlock haccepts
  refine ⟨_, _, lock, haccepts, hlock, hview, hlt, (hbound rfl).resolve_right fun hzero => ?_⟩
  exact absurd (hview.symm.trans hzero.1) (by decide)

end Samples

end Groups

end Concord.Core.Basic
