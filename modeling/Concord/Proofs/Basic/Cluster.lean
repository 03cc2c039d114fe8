import Concord.Proofs.Loyal

/-!
The five-phase protocol without traitors. Certificates and decisions are for the proposal of their
view, and the NewViews of later views report the certificates that their senders backed.
-/

namespace Concord.Core.Basic

open Relation

variable {n : Nat} {σ : Type} {g : Group n σ} {w : World n .basic σ}

theorem reached_of_reachable {traitors : Finset (Fin n)} (h : Reachable g traitors w) (i : Fin n) :
    Reached (g.context i) (w i) :=
  (reached_of_lived (h.lived i)).2

/-- Without traitors, every certificate is for the proposal of its view. -/
theorem proposal_of_certified (h : Reachable g ∅ w) {i : Fin n} {qc : Certificate}
    (hqc : .certified qc ∈ (w i).done) : ∃ b ∈ w.proposals qc.view, b.payload = qc.payload := by
  obtain ⟨b, hb, hview, hpayload⟩ := (reached_of_reachable h i).certified (h.foreign i) hqc
  exact ⟨b, World.mem_proposals.2 ⟨⟨i, hb⟩, hview⟩, hpayload⟩

theorem opening_of_heard (h : Reachable g ∅ w) {i : Fin n} {kind : MessageKind} {m : SignedBody}
    (hm : ⟨kind, m⟩ ∈ (w i).heard) (hkind : kind = .preCommit ∨ kind = .commit ∨ kind = .decide)
    (hsigner : m.signer = (g.member (g.seat m.view)).key) :
    Opening (w (g.seat m.view)) ⟨kind, m⟩ := by
  have hletter := h.letter_of_signer hm hsigner
  exact (reached_of_reachable h _).opening hletter hkind

/-- Without traitors, a delivered payload is the proposal of its view, and the leader made a
certificate of the preCommit phase. -/
theorem proposal_of_delivered (h : Reachable g ∅ w) {i : Fin n} {view : View} {payload : Payload}
    (hdone : .deliver view payload ∈ (w i).done) :
    (∃ b ∈ w.proposals view, b.payload = payload) ∧
      Certified (w (g.seat view)) .preCommit view := by
  rcases (reached_of_reachable h i).delivered (h.foreign i) hdone with
    ⟨⟨b, hb, rfl, hpayload⟩, hstaged⟩ | ⟨m, hm, hsigner, rfl, rfl⟩
  · refine ⟨⟨b, World.mem_proposals.2 ⟨⟨i, hb⟩, rfl⟩, hpayload⟩, ?_⟩
    rw [h.seat_of_proposal hb]
    exact hstaged
  · rw [Group.context_leader] at hsigner
    obtain ⟨hphase, hview, hcertified⟩ := opening_of_heard h hm (.inr (.inr rfl)) hsigner
    have hreached := reached_of_reachable h (g.seat m.view)
    have hstaged := hreached.certified_before (h.foreign _) hcertified (by rw [hphase]; rfl)
    have hproposal := proposal_of_certified h hcertified
    rw [hview] at hproposal hstaged
    exact ⟨hproposal, hstaged⟩

/-- If a certificate of the preCommit phase was made in `view`, at least `n - n / 3` members back
`view`. -/
theorem exists_backers (h : Reachable g ∅ w) {i : Fin n} {view : View}
    (hcertified : Certified (w i) .preCommit view) :
    ∃ seats : Finset (Fin n), n - n / 3 ≤ seats.card ∧ ∀ j ∈ seats, Backs (w j) view := by
  classical
  obtain ⟨qc, hqc, hphase, rfl⟩ := hcertified
  have hreached := reached_of_reachable h i
  obtain ⟨votes, hcollected, hvotes, -⟩ := hreached.votes hqc
  have hsigner : ∀ m ∈ votes, ∃ j, m.signer = g.key j ∧ j ≠ i := fun m hm => by
    obtain ⟨j, hj, hne, -⟩ := h.heard_from (hcollected.heard m hm)
    exact ⟨j, hj, hne⟩
  obtain ⟨seats, hcard, hself, hseats⟩ := hcollected.exists_seats hvotes hsigner
  refine ⟨insert i seats, ?_, fun j hj => ?_⟩
  · rw [Finset.card_insert_of_notMem hself]
    omega
  · rcases Finset.mem_insert.1 hj with rfl | hj
    · have hbefore : Certified _ .prepare _ :=
        hreached.certified_before (h.foreign j) hqc (by rw [hphase]; rfl)
      obtain ⟨qc', hqc', hphase', hview'⟩ := hbefore
      exact ⟨_, hqc', by simp [backed?, hphase', hview']⟩
    · obtain ⟨m, hm, hj⟩ := hseats j hj
      have hletter := h.letter_of_signer (hcollected.heard m hm) hj
      obtain ⟨receiver, hsend⟩ := h.send_of_letter hletter rfl
      have hmphase : m.body.phase = .preCommit := (hvotes m hm).trans hphase
      have hmview : m.body.view = qc.view := hcollected.view m hm
      exact ⟨_, hsend, by simp [backed?, Letter.body, hmphase, hmview]⟩

/-- If a certificate of the preCommit phase was made in `view`, every proposal of a later view is
built on a certificate of `view` or later. A backer of `view` is among the senders of its
NewViews. -/
theorem le_justify_of_backed (h : Reachable g ∅ w) {i : Fin n} {view : View}
    (hcertified : Certified (w i) .preCommit view) {j : Fin n} {b : Body}
    (hb : b ∈ (w j).proposals) (hlt : view < b.view) : view ≤ b.justify.view := by
  obtain ⟨backers, hbackers, hback⟩ := exists_backers h hcertified
  obtain ⟨newViews, best, hgrounds⟩ := (reached_of_reachable h j).grounds hb
  have hsender : ∀ m ∈ newViews, ∃ k, m.signer = g.key k ∧ k ≠ j ∧
      Report (g.context k) (w k) ⟨.newView, m⟩ := fun m hm => by
    obtain ⟨k, hk, hne, hletter⟩ := h.heard_from (hgrounds.collected.heard m hm)
    exact ⟨k, hk, hne, (reached_of_reachable h k).report (h.foreign k) hletter rfl⟩
  have hphase : ∀ m ∈ newViews, m.phase = .newView := fun m hm => by
    obtain ⟨k, -, -, hreport⟩ := hsender m hm
    exact hreport.phase
  obtain ⟨senders, hsenders, -, hsent⟩ := hgrounds.collected.exists_seats hphase fun m hm => by
    obtain ⟨k, hk, hne, -⟩ := hsender m hm
    exact ⟨k, hk, hne⟩
  obtain ⟨k, hk, hk'⟩ := exists_mem_inter g.four_le hsenders hbackers
  obtain ⟨m, hm, hkey⟩ := hsent k hk
  obtain ⟨k', hkey', -, hreport⟩ := hsender m hm
  obtain rfl : k = k' := g.key_inj.1 (hkey.symm.trans hkey')
  have hle : view ≤ m.justify.view := by
    refine hreport.backed view ?_ (hback k hk')
    exact hlt.trans_eq (hgrounds.collected.view m hm).symm
  have hjustify : b.justify.view = best.justify.view := congrArg Subject.view hgrounds.justify
  rw [hjustify]
  exact UInt64.le_trans hle (hgrounds.highest m hm)

/-- A proposal is built on the starting certificate or on the proposal of an earlier view. -/
theorem parent_of_proposal (h : Reachable g ∅ w) {j : Fin n} {b : Body}
    (hb : b ∈ (w j).proposals) : b.justify.subject = Certificate.genesis.subject ∨
      b.justify.phase = .prepare ∧ b.justify.view < b.view ∧
        ∃ parent ∈ w.proposals b.justify.view, b.payload.parent = parent.payload.hash g.scheme := by
  obtain ⟨newViews, best, hgrounds⟩ := (reached_of_reachable h j).grounds hb
  have hheard := hgrounds.collected.heard best hgrounds.best_mem
  obtain ⟨k, hk, hne, hletter⟩ := h.heard_from hheard
  have hreport := (reached_of_reachable h k).report (h.foreign k) hletter rfl
  have hbview : best.view = b.view := hgrounds.collected.view best hgrounds.best_mem
  have hphase : b.justify.phase = best.justify.phase := congrArg Subject.phase hgrounds.justify
  have hview : b.justify.view = best.justify.view := congrArg Subject.view hgrounds.justify
  have hpayload : b.justify.payload = best.justify.payload :=
    congrArg Subject.payload hgrounds.justify
  -- The sender of the best NewView knows its certificate for a proposal or an announcement.
  rcases hreport.known with hgenesis | ⟨⟨hprepare, hknown⟩, hlt⟩
  · refine .inl (hgrounds.justify.trans ?_)
    exact congrArg Certificate.subject hgenesis
  · refine .inr ⟨hphase.trans hprepare, ?_, ?_⟩
    · rw [hview, ← hbview]
      exact hlt
    · rw [hgrounds.parent, hview, hpayload]
      rcases hknown with ⟨parent, hparent, hpview, hppayload⟩ | ⟨m, hm, hsigner, hmview, hmjustify⟩
      · exact ⟨parent, World.mem_proposals.2 ⟨⟨k, hparent⟩, hpview⟩, by rw [hppayload]; rfl⟩
      · rw [Group.context_leader] at hsigner
        have hopening := opening_of_heard h hm (.inl rfl) (by rw [hmview]; exact hsigner)
        obtain ⟨parent, hparent, hppayload⟩ := proposal_of_certified h hopening.certified
        have hsame : m.justify = best.justify := hmjustify
        rw [← hsame]
        exact ⟨parent, hparent, by rw [hppayload]; rfl⟩

end Concord.Core.Basic
