import Concord.Proofs.Life
import Concord.Proofs.NewViews

/-!
Certificates that a core makes from logged votes and its own. They verify at every core with the
same members. Groups of fewer than four are excluded, since a certificate with a single vote is
verified by a rule of its own.
-/

namespace Concord

open Crypto

namespace Certificate

theorem hasVoteFrom_iff {qc : Certificate} {signer : PublicKey} :
    qc.hasVoteFrom signer ↔ signer ∈ qc.votes.map Vote.signer := by
  simp [hasVoteFrom]

theorem votes_addVote (qc : Certificate) (vote : Vote) : (qc.addVote vote).votes =
    qc.votes ++ if vote.signer ∈ qc.votes.map Vote.signer then [] else [vote] := by
  unfold addVote
  simp only [hasVoteFrom_iff]
  split
  · exact (List.append_nil _).symm
  · rfl

theorem mem_addVote {qc : Certificate} {vote v : Vote} (h : v ∈ (qc.addVote vote).votes) :
    v ∈ qc.votes ∨ v = vote := by
  rw [votes_addVote, List.mem_append] at h
  refine h.imp_right fun hnew => ?_
  split at hnew
  · cases hnew
  · exact List.mem_singleton.1 hnew

theorem subset_addVote (qc : Certificate) (vote : Vote) : qc.votes ⊆ (qc.addVote vote).votes := by
  unfold addVote
  split
  · exact List.Subset.refl _
  · exact List.subset_append_left _ _

theorem votes_addVotes {votes : List Vote} {qc : Certificate}
    (h : ((qc.votes ++ votes).map Vote.signer).Nodup) :
    (qc.addVotes votes).votes = qc.votes ++ votes := by
  unfold addVotes
  induction votes generalizing qc with
  | nil => exact (List.append_nil _).symm
  | cons vote rest ih =>
    have hnew : qc.hasVoteFrom vote.signer = false := by
      simp only [List.map_append, List.nodup_append, List.map_cons, List.mem_cons] at h
      simp only [hasVoteFrom, List.any_eq_false, decide_eq_true_eq]
      exact fun held hheld => h.2.2 _ (List.mem_map_of_mem hheld) _ (.inl rfl)
    have hvotes : (qc.addVote vote).votes = qc.votes ++ [vote] := by
      simp [addVote, hnew]
    rw [List.foldl_cons, ih, hvotes, List.append_assoc]
    · rfl
    · rw [hvotes, List.append_assoc]
      exact h

theorem votes_ofVotes {subject : Subject} {votes : List Vote}
    (h : (votes.map Vote.signer).Nodup) : (ofVotes subject votes).votes = votes := by
  have hall : (((⟨subject, []⟩ : Certificate).votes ++ votes).map Vote.signer).Nodup := h
  exact votes_addVotes hall

end Certificate

namespace Committee

variable {c : Committee} {scheme : Scheme} {qc : Certificate} {votes : List Vote}

theorem length_le_validSigners (hsub : votes ⊆ qc.votes) (hnodup : (votes.map Vote.signer).Nodup)
    (hvalid : ∀ vote ∈ votes, c.isValidVote scheme (qc.payload.hash scheme) vote) :
    votes.length ≤ (c.validSigners scheme qc).length := by
  rw [← List.length_map Vote.signer]
  refine List.Nodup.length_le_of_subset hnodup fun signer hsigner => ?_
  obtain ⟨vote, hvote, rfl⟩ := List.mem_map.1 hsigner
  refine List.mem_eraseDups.2 (List.mem_map_of_mem (List.mem_filter.2 ⟨hsub hvote, ?_⟩))
  exact hvalid vote hvote

theorem isQuorum_mono {count count' : Nat} (h : c.isQuorum count) (hle : count ≤ count') :
    c.isQuorum count' := by
  have hcount : quorumThreshold c.size ≤ count := of_decide_eq_true h
  exact decide_eq_true (Nat.le_trans hcount hle)

theorem two_le_of_isQuorum (hsize : 4 ≤ c.size) {count : Nat} (h : c.isQuorum count) :
    2 ≤ count := by
  have hcount : c.size - c.size / 3 - 1 ≤ count := of_decide_eq_true h
  omega

/-- A certificate of members' votes verifies if valid votes of a quorum are among them. -/
theorem verifyCertificate_of_quorum (hsize : 4 ≤ c.size)
    (hmembers : ∀ vote ∈ qc.votes, c.contains vote.signer) (hsub : votes ⊆ qc.votes)
    (hnodup : (votes.map Vote.signer).Nodup)
    (hvalid : ∀ vote ∈ votes, c.isValidVote scheme (qc.payload.hash scheme) vote)
    (hquorum : c.isQuorum votes.length) : c.verifyCertificate scheme qc := by
  -- Two votes at least, so the certificate is not checked as one with a single vote.
  have htwo := two_le_of_isQuorum hsize hquorum
  have hvotes : votes.length ≤ qc.votes.length :=
    List.Nodup.length_le_of_subset (List.Nodup.of_map _ hnodup) hsub
  have hsigners := length_le_validSigners hsub hnodup hvalid
  have hseveral : qc.votes.length ≠ 1 := by omega
  have hsome : 0 < (c.validSigners scheme qc).length := by omega
  unfold verifyCertificate
  simp only [Bool.and_eq_true, List.all_eq_true, hseveral, if_false, decide_eq_true_eq]
  exact ⟨hmembers, hsome, isQuorum_mono hquorum hsigners⟩

end Committee

namespace Core

variable {σ : Type} {ctx : Context σ}

/-- The core is that of a member, and there are at least four members. -/
structure Context.Seated (ctx : Context σ) : Prop where
  four_le : 4 ≤ ctx.committee.size
  contains_me : ctx.committee.contains ctx.me

theorem members_of_ofMembers {scheme : Scheme} {members : List Member} {committee : Committee}
    (h : Committee.ofMembers scheme members = .ok committee) : committee.members = members := by
  unfold Committee.ofMembers at h
  split at h
  · cases h
  · split at h
    · cases h
    · cases h
      rfl

theorem members_of_check {settings : Settings} {key : PublicKey} (h : settings.check key = .ok ()) :
    minMembers ≤ settings.members.length ∧ settings.members.any fun m => m.key = key := by
  unfold Settings.check at h
  split at h
  · cases h
  · next hsize =>
    split at h
    · cases h
    · split at h
      · cases h
      · next hmember => exact ⟨Nat.not_lt.1 hsize, Decidable.not_not.1 hmember⟩

theorem Context.seated_of_ofSettings {scheme : Scheme} {signer : Signer}
    {application : Application σ} {settings : Settings}
    (h : ofSettings scheme signer application settings = .ok ctx) : ctx.Seated := by
  unfold ofSettings at h
  split at h
  · cases h
  · next hcheck =>
    split at h
    · cases h
    · next committee hcommittee =>
      cases h
      have hmembers := members_of_ofMembers hcommittee
      obtain ⟨hsize, hmember⟩ := members_of_check hcheck
      refine ⟨?_, ?_⟩
      · rw [Committee.size, hmembers]
        exact hsize
      · rw [Committee.contains, hmembers]
        exact hmember

theorem Context.signer_of_ownVote {payload : Payload} {own : Vote}
    (h : ctx.ownVote payload = .ok own) : own.signer = ctx.me := by
  unfold ownVote at h
  split at h
  · cases h
    rfl
  · cases h

theorem Context.Genuine.isValidVote {x : Letter} (h : ctx.Genuine x) :
    ctx.committee.isValidVote ctx.scheme (x.body.payload.hash ctx.scheme) x.signed.vote := by
  have hsigned := h.signed
  simp only [SignedBody.verify, Bool.and_eq_true] at hsigned
  exact Bool.and_eq_true_iff.2 ⟨h.member, hsigned.2⟩

/-- A certificate of collected messages and the core's own vote verifies. -/
theorem Collected.verifyCertificate {heard : List Letter} {kind : MessageKind} {view : View}
    {phase : Phase} {messages : List SignedBody} {subject : Subject} {own : Vote}
    (h : Collected ctx heard kind view messages) (hseated : ctx.Seated)
    (hgenuine : ∀ x ∈ heard, ctx.Genuine x) (hphase : ∀ m ∈ messages, m.phase = phase)
    (hpayload : ∀ m ∈ messages, m.body.payload = subject.payload)
    (hown : own.signer = ctx.me) : ctx.verifyCertificate
      ((Certificate.ofVotes subject (messages.map SignedBody.vote)).addVote own) := by
  have hsigners : ((messages.map SignedBody.vote).map Vote.signer).Nodup := by
    rw [List.map_map]
    exact h.nodup_signers hphase
  have hvotes : (Certificate.ofVotes subject (messages.map SignedBody.vote)).votes =
      messages.map SignedBody.vote := Certificate.votes_ofVotes hsigners
  have hvalid : ∀ vote ∈ messages.map SignedBody.vote,
      ctx.committee.isValidVote ctx.scheme (subject.payload.hash ctx.scheme) vote := by
    intro vote hvote
    obtain ⟨m, hm, rfl⟩ := List.mem_map.1 hvote
    exact hpayload m hm ▸ (hgenuine _ (h.heard m hm)).isValidVote
  have hown : ctx.committee.contains own.signer := hown ▸ hseated.contains_me
  have hmembers : ∀ vote ∈ messages.map SignedBody.vote, ctx.committee.contains vote.signer :=
    fun vote hvote => (Bool.and_eq_true_iff.1 (hvalid vote hvote)).1
  have hsub := Certificate.subset_addVote
    (Certificate.ofVotes subject (messages.map SignedBody.vote)) own
  rw [hvotes] at hsub
  -- The collected votes are a quorum by themselves; the own one may repeat one of them.
  refine Committee.verifyCertificate_of_quorum hseated.four_le (fun vote hvote => ?_) hsub hsigners
    ?_ (by simpa using h.quorum)
  · rcases Certificate.mem_addVote hvote with hvote | rfl
    · exact hmembers vote (hvotes ▸ hvote)
    · exact hown
  · simpa [Certificate.payload] using hvalid

/-- `votes` are a quorum of votes that the core heard, and `qc` consists of these and the core's own
vote. -/
structure Tallied (ctx : Context σ) (heard : List Letter) (qc : Certificate)
    (votes : List SignedBody) : Prop where
  collected : Collected ctx heard .vote qc.view votes
  phase : ∀ m ∈ votes, m.phase = qc.phase
  payload : ∀ m ∈ votes, m.body.payload = qc.payload
  made : ∃ own, ctx.ownVote qc.payload = .ok own ∧
    qc = (Certificate.ofVotes qc.subject (votes.map SignedBody.vote)).addVote own

namespace Tallied

variable {heard heard' : List Letter} {qc : Certificate} {votes : List SignedBody}

theorem mono (h : Tallied ctx heard qc votes) (hsub : heard ⊆ heard') :
    Tallied ctx heard' qc votes :=
  { h with collected := h.collected.mono hsub }

theorem nodup_signers (h : Tallied ctx heard qc votes) : (votes.map SignedBody.signer).Nodup :=
  h.collected.nodup_signers h.phase

theorem votes_eq (h : Tallied ctx heard qc votes) : ∃ own, ctx.ownVote qc.payload = .ok own ∧
    qc.votes = votes.map SignedBody.vote ++
      if ctx.me ∈ votes.map SignedBody.signer then [] else [own] := by
  obtain ⟨own, hown, hmade⟩ := h.made
  have hsigners : (votes.map SignedBody.vote).map Vote.signer = votes.map SignedBody.signer :=
    List.map_map
  have hvotes := Certificate.votes_addVote
    (Certificate.ofVotes qc.subject (votes.map SignedBody.vote)) own
  rw [← hmade, Certificate.votes_ofVotes (hsigners ▸ h.nodup_signers), hsigners,
    Context.signer_of_ownVote hown] at hvotes
  exact ⟨own, hown, hvotes⟩

theorem signers_eq (h : Tallied ctx heard qc votes) : qc.votes.map Vote.signer =
    votes.map SignedBody.signer ++
      if ctx.me ∈ votes.map SignedBody.signer then [] else [ctx.me] := by
  obtain ⟨own, hown, hvotes⟩ := h.votes_eq
  rw [hvotes, List.map_append, List.map_map]
  congr 1
  split
  · rfl
  · exact congrArg ([·]) (Context.signer_of_ownVote hown)

theorem nodup (h : Tallied ctx heard qc votes) : (qc.votes.map Vote.signer).Nodup := by
  rw [h.signers_eq]
  split
  · simpa using h.nodup_signers
  · next hme =>
    refine List.nodup_append.2 ⟨h.nodup_signers, List.nodup_singleton _, ?_⟩
    rintro signer hsigner own hown rfl
    exact hme (List.mem_singleton.1 hown ▸ hsigner)

theorem me_mem (h : Tallied ctx heard qc votes) : ctx.me ∈ qc.votes.map Vote.signer := by
  rw [h.signers_eq]
  split
  · next hme => simpa using hme
  · exact List.mem_append_right _ (List.mem_singleton_self _)

theorem verifyCertificate (h : Tallied ctx heard qc votes) (hseated : ctx.Seated)
    (hgenuine : ∀ x ∈ heard, ctx.Genuine x) : ctx.verifyCertificate qc := by
  obtain ⟨own, hown, hmade⟩ := h.made
  rw [hmade]
  exact h.collected.verifyCertificate hseated hgenuine h.phase h.payload
    (Context.signer_of_ownVote hown)

end Tallied

end Core

end Concord
