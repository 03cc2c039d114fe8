import Concord.Proofs.Aggregation
import Concord.Proofs.Intersection
import Concord.Proofs.Reception
import Mathlib.Data.Nat.ModEq

/-!
A leader's own broadcast that is returned to it as a vote. Signatures do not cover the kind of a
message, so such an echo is logged and counted towards the votes that the leader needs besides its
own. A certificate lacks a member's vote only if an echo was counted.
-/

namespace Concord

namespace Committee

variable {c : Committee}

theorem voters_of_valid {scheme : Crypto.Scheme} {qc : Certificate}
    (h : ∀ vote ∈ qc.votes, c.isValidVote scheme (qc.payload.hash scheme) vote) :
    c.voters scheme qc = (qc.votes.map Vote.signer).toFinset := by
  ext key
  rw [mem_voters, List.mem_toFinset, List.mem_map]
  exact ⟨fun ⟨vote, hvote, _, hkey⟩ => ⟨vote, hvote, hkey⟩,
    fun ⟨vote, hvote, hkey⟩ => ⟨vote, hvote, h vote hvote, hkey⟩⟩

/-- Among at least two members, two successive views have the same leader only if the second is the
last view. -/
theorem next_eq_last (hsize : 2 ≤ c.size) (hnodup : (c.members.map Member.key).Nodup)
    {view next : View} (hnext : view.next? = some next)
    (hsame : (c.leader view).key = (c.leader next).key) : next = View.last := by
  have hindex : leaderIndex view c.size = leaderIndex next c.size := by
    have hkeys := List.nodup_iff_injective_getElem.1 hnodup
    have hplace (v : View) : leaderIndex v c.size < (c.members.map Member.key).length := by
      rw [List.length_map]
      exact Nat.mod_lt _ c.size_pos
    have heq := @hkeys ⟨_, hplace view⟩ ⟨_, hplace next⟩ (by simpa [leader] using hsame)
    exact congrArg Fin.val heq
  have hview := View.toNat_next hnext
  refine Decidable.byContradiction fun hlast => ?_
  have hnext' : next.next? = some (next + 1) := if_neg hlast
  have hsucc : view + 1 = next := by
    unfold View.next? at hnext
    split at hnext
    · cases hnext
    · exact Option.some.inj hnext
  unfold leaderIndex at hindex
  rw [hsucc, View.toNat_next hnext'] at hindex
  have hdvd : c.size ∣ next.toNat + 1 - next.toNat :=
    (Nat.modEq_iff_dvd' (Nat.le_succ _)).1 hindex
  have hone := Nat.le_of_dvd Nat.one_pos (by simpa using hdvd)
  omega

end Committee

namespace Core

section Counting

variable {σ : Type} {ctx : Context σ} {heard : List Letter} {qc : Certificate}
  {votes : List SignedBody}

theorem Context.isValidVote_of_ownVote (hseated : ctx.Seated) (hsound : ctx.signer.Sound ctx.scheme)
    {payload : Payload} {own : Vote} (h : ctx.ownVote payload = .ok own) :
    ctx.committee.isValidVote ctx.scheme (payload.hash ctx.scheme) own := by
  unfold ownVote at h
  split at h
  · next hsign =>
    cases h
    exact Bool.and_eq_true_iff.2 ⟨hseated.contains_me, hsound _ _ hsign⟩
  · cases h

theorem Tallied.isValidVote (h : Tallied ctx heard qc votes) (hseated : ctx.Seated)
    (hsound : ctx.signer.Sound ctx.scheme) (hgenuine : ∀ x ∈ heard, ctx.Genuine x) :
    ∀ vote ∈ qc.votes, ctx.committee.isValidVote ctx.scheme (qc.payload.hash ctx.scheme) vote := by
  obtain ⟨own, hown, hvotes⟩ := h.votes_eq
  rw [hvotes]
  refine List.forall_mem_append.2 ⟨fun vote hvote => ?_, fun vote hvote => ?_⟩
  · obtain ⟨m, hm, rfl⟩ := List.mem_map.1 hvote
    exact h.payload m hm ▸ (hgenuine _ (h.collected.heard m hm)).isValidVote
  · split at hvote
    · cases hvote
    · obtain rfl := List.mem_singleton.1 hvote
      exact Context.isValidVote_of_ownVote hseated hsound hown

theorem Tallied.card_voters (h : Tallied ctx heard qc votes) (hseated : ctx.Seated)
    (hsound : ctx.signer.Sound ctx.scheme) (hgenuine : ∀ x ∈ heard, ctx.Genuine x) :
    (ctx.committee.voters ctx.scheme qc).card =
      votes.length + if ctx.me ∈ votes.map SignedBody.signer then 0 else 1 := by
  rw [Committee.voters_of_valid (h.isValidVote hseated hsound hgenuine),
    List.toFinset_card_of_nodup h.nodup, h.signers_eq]
  split <;> simp

end Counting

section Written

variable {γ σ : Type} {ctx : Context σ} {kind : MessageKind} {body : Body} {x : Letter}

theorem Life.mem_written_after {l : Life γ σ} {t : Turn γ σ} :
    x ∈ (l.after t).written ↔ x ∈ l.written ∨ .wrote x ∈ t.effects := by
  rw [written_after, List.mem_append, List.mem_filterMap]
  refine or_congr_right ⟨fun ⟨e, he, hwrote⟩ => ?_, fun h => ⟨_, h, rfl⟩⟩
  cases e with
  | wrote letter => exact Option.some.inj hwrote ▸ he
  | send | broadcast | resetTimer | postpone | certified | deliver => cases hwrote

theorem Context.wrote_mem_posted {receiver : Member} :
    .wrote x ∈ ctx.posted receiver kind body ↔ ctx.Wrote kind body x := by
  simp [mem_posted]

theorem Context.wrote_mem_announced :
    .wrote x ∈ ctx.announced kind body ↔ ctx.Wrote kind body x := by
  simp [mem_announced]

end Written

/-- Every message heard in the core's name was signed by the core. -/
def Unforged {γ σ : Type} (ctx : Context σ) (l : Life γ σ) : Prop :=
  ∀ x ∈ l.heard, x.signed.signer = ctx.me → ∃ y ∈ l.written, y.signed = x.signed

instance {γ σ : Type} (ctx : Context σ) (l : Life γ σ) : Decidable (Unforged ctx l) :=
  inferInstanceAs (Decidable (∀ x ∈ l.heard, x.signed.signer = ctx.me → ∃ y ∈ l.written,
    y.signed = x.signed))

namespace Basic

variable {σ : Type} {ctx : Context σ} {l l' : Life Unit σ}

/-- A core writes to the leader of a view that it does not lead, or answers a verified broadcast of
the leader, or sends a broadcast. -/
inductive Occasion (ctx : Context σ) (heard : List Letter) (x : Letter) : Prop
  | report : ctx.leads x.body.view = false → Occasion ctx heard x
  | answer {y : Letter} :
      y ∈ heard → (ctx.leader x.body.view).key = y.signed.signer → y.body.view = x.body.view →
      y.body.phase = x.body.phase → ctx.verifyCertificate y.body.justify →
      x.body.justify = Certificate.genesis → Occasion ctx heard x
  | lead : x.kind.isProposal → Occasion ctx heard x

theorem Occasion.mono {heard heard' : List Letter} {x : Letter} (h : Occasion ctx heard x)
    (hsub : heard ⊆ heard') : Occasion ctx heard' x := by
  cases h with
  | report hleads => exact .report hleads
  | answer hy hsigner hview hphase hverify hjustify =>
    exact .answer (hsub hy) hsigner hview hphase hverify hjustify
  | lead hkind => exact .lead hkind

theorem Occasion.of_ballot {kind : MessageKind} {m : SignedBody} {phase : Phase} {payload : Payload}
    {x : Letter} (hm : ⟨kind, m⟩ ∈ l.heard) (hgenuine : ∀ x ∈ l.heard, ctx.Genuine x)
    (hkind : kind.isProposal) (hphase : ownPhase? kind = some phase)
    (hsigner : (ctx.leader m.view).key = m.signer) (hverify : ctx.verifyCertificate m.justify)
    (hwrote : ctx.Wrote .vote (Body.plain m.view phase payload Certificate.genesis) x) :
    Occasion ctx l.heard x := by
  have hbody := hwrote.body_eq
  refine .answer hm ?_ ?_ ?_ hverify ?_
  · rwa [hbody]
  · rw [hbody]
    rfl
  · rw [hbody]
    exact phase_of_genuine (hgenuine _ hm) hkind hphase
  · rw [hbody]
    rfl

theorem verify_of_checkProposal {s : State} {app : σ} {m : SignedBody}
    {extendsLock : Certificate → Bool} (h : ctx.checkProposal s app m extendsLock = .ok ()) :
    ctx.verifyCertificate m.justify := by
  unfold Context.checkProposal at h
  split at h
  · cases h
  · split at h
    · cases h
    · next hverify => simpa using hverify

theorem Move.occasion (h : Move ctx l l') (hgenuine : ∀ x ∈ l.heard, ctx.Genuine x) {x : Letter}
    (hx : x ∈ l'.written) : x ∈ l.written ∨ Occasion ctx l.heard x := by
  cases h with
  | hear | note | retouch | stop => exact .inl hx
  | begin | enter | keep | squander | log | followDecide | certifyUnsigned | certifyIdle =>
    exact .inl (by simpa [List.filterMap_cons] using hx)
  | report hleads =>
    refine (Life.mem_written_after.1 hx).imp_right fun hx => .report ?_
    rw [(Context.wrote_mem_posted.1 hx).body_eq]
    exact hleads
  | propose _ _ _ _ _ _ hwrote =>
    refine (Life.mem_written_after.1 hx).imp_right fun hx => .lead ?_
    obtain rfl : x = _ := by simpa using hx
    rw [hwrote.kind_eq]
    rfl
  | accept hm _ _ hcheck =>
    refine (Life.mem_written_after.1 hx).imp_right fun hx => ?_
    have hwrote := Context.wrote_mem_posted.1 (by simpa [ballot] using hx)
    exact .of_ballot hm hgenuine rfl rfl (Context.leader_of_checkProposal hcheck)
      (verify_of_checkProposal hcheck) hwrote
  | followPreCommit hm hview _ hcheck | followCommit hm hview _ hcheck =>
    refine (Life.mem_written_after.1 hx).imp_right fun hx => ?_
    have hwrote := Context.wrote_mem_posted.1 (by simpa [ballot] using hx)
    rw [← hview] at hwrote
    exact .of_ballot hm hgenuine rfl rfl (hview ▸ (leader_of_checkCertified hcheck).1)
      (verify_of_checkCertified hcheck) hwrote
  | certifyPrepare | certifyPreCommit =>
    refine (Life.mem_written_after.1 hx).imp_right fun hx => .lead ?_
    have hwrote := Context.wrote_mem_announced.1 (by simpa using hx)
    rw [hwrote.kind_eq]
    rfl
  | certifyCommit _ _ _ _ hwrote =>
    refine (Life.mem_written_after.1 hx).imp_right fun hx => .lead ?_
    obtain rfl : x = _ := by simpa using hx
    rw [hwrote.kind_eq]
    rfl

theorem Reached.occasion (h : Reached ctx l) : ∀ x ∈ l.written, Occasion ctx l.heard x := by
  induction h with
  | born app => exact fun x hx => absurd hx List.not_mem_nil
  | move hreached hmove ih =>
    intro x hx
    rcases hmove.occasion hreached.genuine hx with hx | hoccasion
    · exact (ih x hx).mono hmove.heard_subset
    · exact hoccasion.mono hmove.heard_subset

/-- In a view that it leads, a core signs only broadcasts. -/
theorem Reached.isProposal_of_leads (h : Reached ctx l) (hunforged : Unforged ctx l) {x : Letter}
    (hx : x ∈ l.written) (hleads : ctx.leads x.body.view) : x.kind.isProposal := by
  have hself : (ctx.leader x.body.view).key = ctx.me := of_decide_eq_true hleads
  cases h.occasion x hx with
  | report hother => simp [hleads] at hother
  | lead hkind => exact hkind
  | @answer y hy hsigner hview hphase hverify hjustify =>
    obtain ⟨z, hz, hsame⟩ := hunforged y hy (hsigner.symm.trans hself)
    have hbody : z.body = y.body := congrArg SignedBody.body hsame
    obtain rfl : z = x := h.written.rising.eq_of_place hz hx (by rw [hbody, hview, hphase])
    rw [← hbody, hjustify] at hverify
    exact absurd hverify (by simp [Context.verifyCertificate, Committee.verifyCertificate,
      Committee.validSigners, Certificate.genesis])

theorem Reached.leads_certified (h : Reached ctx l) {qc : Certificate}
    (hqc : .certified qc ∈ l.done) : ctx.leads qc.view := by
  refine h.forall_asked .certified (P := fun _ qc => ctx.leads qc.view)
    (fun _ hold => hold) (fun _ _ hasked => ?_) qc hqc
  cases hasked with
  | certified hleads _ hcertificate => exact certificate_view hcertificate ▸ hleads

end Basic

namespace Chained

variable {σ : Type} {ctx : Context σ} {l l' : Life Chain σ}

inductive Occasion (ctx : Context σ) (x : Letter) : Prop
  | report : x.body.phase = .newView → Occasion ctx x
  | vote {next : View} :
      x.body.view.next? = some next → (ctx.leader next).key ≠ ctx.me → Occasion ctx x
  | lead : x.kind = .generic → ctx.leads x.body.view → Occasion ctx x

def AllOccasioned (ctx : Context σ) (l : Life Chain σ) : Prop := ∀ x ∈ l.written, Occasion ctx x

theorem Move.occasion (h : Move ctx l l') (hold : AllOccasioned ctx l) : AllOccasioned ctx l' := by
  rcases h.written with hsame | ⟨-, -, hmore⟩
  · rwa [AllOccasioned, hsame]
  · rw [AllOccasioned, hmore]
    refine List.forall_mem_append.2 ⟨hold, fun x hx => .report ?_⟩
    rw [(Context.mem_signed.1 hx).body_eq]
    rfl

theorem Adopt.occasion {node : Body} (h : Adopt ctx node l l') (hold : AllOccasioned ctx l) :
    AllOccasioned ctx l' := by
  have hstored : (stored node l).written = l.written := rfl
  cases h with
  | last | unsigned => exact hold
  | leading _ _ hwalk => rwa [AllOccasioned, hwalk.written, hstored]
  | voting hnext hother hwrote hwalk =>
    intro x hx
    rw [hwalk.written, Life.mem_written_after] at hx
    rcases hx with hx | hx
    · exact hold x hx
    · obtain rfl : x = _ := by simpa using hx
      refine .vote ?_ hother
      rw [hwrote.body_eq]
      exact hnext

theorem Accept.occasion (h : Accept ctx l l') (hold : AllOccasioned ctx l) :
    AllOccasioned ctx l' := by
  cases h with
  | mk _ _ _ _ _ hadopt =>
    refine hadopt.occasion fun x hx => hold x ?_
    simpa [List.filterMap_cons] using hx

theorem Propose.occasion (h : Propose ctx l l') (hold : AllOccasioned ctx l) :
    AllOccasioned ctx l' := by
  cases h with
  | mk hleads _ _ _ hnode hwrote hadopt =>
    refine hadopt.occasion fun x hx => ?_
    rcases Life.mem_written_after.1 hx with hx | hx
    · exact hold x hx
    · obtain rfl : x = _ := by simpa using hx
      refine .lead hwrote.kind_eq ?_
      rw [hwrote.body_eq, hnode]
      exact hleads

theorem occasion_of_lived {l : Life (Memory .chained) σ} (h : Lived ctx l) : AllOccasioned ctx l :=
  kept_of_lived h (fun _ _ hx => absurd hx List.not_mem_nil) (fun hmove hold => hmove.occasion hold)
    (fun haccept hold => haccept.occasion hold) fun hpropose hold => hpropose.occasion hold

theorem Reached.phase_certified {known : State × Chain → Prop} (h : Reached ctx known l)
    {qc : Certificate} (hqc : .certified qc ∈ l.done) : qc.phase = .generic := by
  refine h.forall_asked .certified (P := fun _ qc => qc.phase = .generic)
    (fun _ hold => hold) (fun _ _ hasked => ?_) qc hqc
  cases hasked with
  | certified _ _ _ _ _ _ _ hmade =>
    rw [Certificate.phase, hmade]
    simp
  | adopted _ _ _ _ _ hconsequent => cases hconsequent

end Chained

/-- A counted message in the core's own name is a broadcast that the core signed. In the chained
protocol, the certificate is then of the last view but one. -/
theorem Lived.echo {v : Variant} {σ : Type} {ctx : Context σ} {l : Life (Memory v) σ}
    (h : Lived ctx l) (hseated : ctx.Seated) (hnodup : (ctx.committee.members.map Member.key).Nodup)
    (hunforged : Unforged ctx l) {qc : Certificate} (hqc : .certified qc ∈ l.done)
    {votes : List SignedBody} (htallied : Tallied ctx l.heard qc votes) {m : SignedBody}
    (hm : m ∈ votes) (hself : m.signer = ctx.me) :
    ∃ x ∈ l.written, x.signed = m ∧ x.kind.isProposal ∧
      (v = .chained → qc.view.next? = some View.last) := by
  obtain ⟨x, hx, rfl⟩ := hunforged _ (htallied.collected.heard m hm) hself
  have hview : x.body.view = qc.view := htallied.collected.view _ hm
  have hphase : x.body.phase = qc.phase := htallied.phase _ hm
  cases v with
  | basic =>
    have hreached := (Basic.reached_of_lived h).2
    have hleads := hview.symm ▸ hreached.leads_certified hqc
    exact ⟨x, hx, rfl, hreached.isProposal_of_leads hunforged hx hleads, nofun⟩
  | chained =>
    have hreached := Chained.reached_anyhow h
    obtain ⟨-, ⟨next, hnext, hleads, -⟩, -⟩ := hreached.formed hqc
    have hleader : (ctx.leader next).key = ctx.me := of_decide_eq_true hleads
    -- A vote goes to the next leader, which is the core itself, so it was no vote.
    cases Chained.occasion_of_lived h x hx with
    | report hreport => simp [hreport, hreached.phase_certified hqc] at hphase
    | vote hnext' hother =>
      obtain rfl := Option.some.inj (hnext.symm.trans (hview ▸ hnext'))
      exact absurd hleader hother
    | lead hkind hleads' =>
      refine ⟨x, hx, rfl, hkind ▸ rfl, fun _ => ?_⟩
      have hsame : (ctx.leader qc.view).key = (ctx.leader next).key :=
        (of_decide_eq_true (hview ▸ hleads')).trans hleader.symm
      have htwo : 2 ≤ ctx.committee.size := Nat.le_trans (by decide) hseated.four_le
      exact ctx.committee.next_eq_last htwo hnodup hnext hsame ▸ hnext

/-- A certificate that a core makes has valid votes of at least a quorum of members. It has one more
if and only if more votes than the quorum were counted, or none of those counted is in the core's
own name. A counted vote in its own name is a broadcast that the core signed. -/
theorem full_iff_unechoed {v : Variant} {σ : Type} {ctx : Context σ} {l : Life (Memory v) σ}
    (h : Lived ctx l) (hseated : ctx.Seated) (hnodup : (ctx.committee.members.map Member.key).Nodup)
    (hsound : ctx.signer.Sound ctx.scheme) (hunforged : Unforged ctx l) {qc : Certificate}
    (hqc : .certified qc ∈ l.done) : ∃ votes, Tallied ctx l.heard qc votes ∧
      quorumThreshold ctx.committee.size ≤ (ctx.committee.voters ctx.scheme qc).card ∧
      (quorumThreshold ctx.committee.size < (ctx.committee.voters ctx.scheme qc).card ↔
        quorumThreshold ctx.committee.size < votes.length ∨ ∀ m ∈ votes, m.signer ≠ ctx.me) ∧
      ∀ m ∈ votes, m.signer = ctx.me → ∃ x ∈ l.written, x.signed = m ∧ x.kind.isProposal ∧
        (v = .chained → qc.view.next? = some View.last) := by
  obtain ⟨votes, htallied⟩ := h.tallied hqc
  have hquorum : quorumThreshold ctx.committee.size ≤ votes.length :=
    of_decide_eq_true htallied.collected.quorum
  have hcard := htallied.card_voters hseated hsound h.genuine
  refine ⟨votes, htallied, by omega, ?_, fun m hm hself =>
    h.echo hseated hnodup hunforged hqc htallied hm hself⟩
  have hnone : (∀ m ∈ votes, m.signer ≠ ctx.me) ↔ ctx.me ∉ votes.map SignedBody.signer := by
    simp
  rw [hcard, hnone]
  split
  · next hself => simp [hself]
  · next hself => simpa [hself] using Nat.lt_succ_of_le hquorum

section Samples

open Legible Cast

/-- The leader of view 0 has proposed, and member 0 has answered. -/
def proposedCast : Cast 4 .basic Unit :=
  play four .basic () [.begin 0, .begin 1, .begin 2, .deliver 0 1 0, .deliver 2 1 0, .deliver 1 0 0]

def latest (i : Fin 4) : Letter := (proposedCast.world i).letters.getLastD default

/-- The leader gets its own Prepare as a vote, and then the vote of member 0. -/
def echoedLeader : Life (Memory .basic) Unit :=
  ((proposedCast.world 1).take opener (.feed (Letter.envelope ⟨.vote, (latest 1).signed⟩))).take
    opener (.feed (latest 0).envelope)

def shortCertificate : Certificate := (echoedLeader.letters.getLastD default).body.justify

theorem shortCertificate_spec : (latest 1).kind = .prepare ∧ (latest 0).kind = .vote ∧
    .certified shortCertificate ∈ echoedLeader.done ∧
    shortCertificate.votes.map Vote.signer = [key 1, key 0] ∧
    (four.committee.voters scheme shortCertificate).card = quorumThreshold 4 ∧
    Unforged opener echoedLeader ∧
    (four.committee.members.map Member.key).Nodup := by
  decide +kernel

/-- A leader counts its own Prepare as a vote, and its certificate has the votes of two members
only. -/
theorem short_of_echo : .certified shortCertificate ∈ echoedLeader.done ∧
    Unforged opener echoedLeader ∧
    (four.committee.voters scheme shortCertificate).card = quorumThreshold 4 ∧
    ∃ votes, Tallied opener echoedLeader.heard shortCertificate votes ∧
      ∃ x ∈ echoedLeader.written, x.signed ∈ votes ∧ x.kind.isProposal := by
  obtain ⟨-, -, hqc, -, hcard, hunforged, hnodup⟩ := shortCertificate_spec
  have hlived : Lived opener echoedLeader :=
    .take _ (.take _ ((Cast.reachable_play ..).lived 1) trivial) trivial
  obtain ⟨votes, htallied, -, hiff, hechoes⟩ := full_iff_unechoed hlived (four.seated_context 1)
    hnodup (sound_signer 1) hunforged hqc
  refine ⟨hqc, hunforged, hcard, votes, htallied, ?_⟩
  have hshort : ¬ quorumThreshold 4 < (four.committee.voters scheme shortCertificate).card := by
    omega
  obtain ⟨m, hm, hself⟩ : ∃ m ∈ votes, m.signer = opener.me := by
    simpa using (not_or.1 fun hfull => hshort (hiff.2 hfull)).2
  obtain ⟨x, hx, rfl, hkind, -⟩ := hechoes m hm hself
  exact ⟨x, hx, hm, hkind⟩

end Samples

end Core

end Concord
