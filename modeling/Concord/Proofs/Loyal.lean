import Concord.Proofs.Basic.History
import Concord.Proofs.Chained.History
import Concord.Proofs.Group
import Mathlib.Algebra.BigOperators.Fin

/-!
Facts about runs without traitors that hold for both protocols. Every message comes from the member
that signed it, and each view has at most one proposal, by its leader.
-/

namespace Concord.Core

variable {n : Nat} {v : Variant} {σ : Type}

/-- Every message that the core sends is signed by the core. Messages to one member are NewViews or
votes to another member, and broadcasts are proposals or announcements. -/
structure Own {γ : Type} (ctx : Context σ) (l : Life γ σ) : Prop where
  send : ∀ {receiver x}, .send receiver x ∈ l.done → x.signed.signer = ctx.me ∧
    receiver.key ≠ ctx.me ∧ (x.kind = .newView ∨ x.kind = .vote)
  broadcast : ∀ {x}, .broadcast x ∈ l.done → x.signed.signer = ctx.me ∧ x.kind.isProposal

section Cores

variable {ctx : Context σ}

theorem Lived.own {l : Life (Memory v) σ} (h : Lived ctx l) : Own ctx l := by
  cases v with
  | basic =>
    have hreached := (Basic.reached_of_lived h).2
    exact ⟨hreached.send, hreached.broadcast⟩
  | chained =>
    have hreached := Chained.reached_anyhow h
    refine ⟨fun hx => ?_, fun hx => ?_⟩
    · obtain ⟨hsigner, hother, hkind⟩ := hreached.send hx
      exact ⟨hsigner, hother, hkind.imp And.left And.left⟩
    · obtain ⟨hsigner, hkind⟩ := hreached.broadcast hx
      exact ⟨hsigner, hkind ▸ rfl⟩

theorem Lived.orderly {l : Life (Memory v) σ} (h : Lived ctx l) : l.Orderly ctx := by
  cases v with
  | basic => exact (Basic.reached_of_lived h).2.ordered.orderly
  | chained => exact (Chained.reached_anyhow h).ordered.orderly

end Cores

variable {g : Group n σ} {w : World n v σ}

/-- Without traitors, a message that `j` sent to `i` is signed by `j`. -/
theorem Reachable.signer_of_sent (h : Reachable g ∅ w) {i j : Fin n} {x : Letter}
    (hsent : Sent g w j i x) : x.signed.signer = g.key j ∧ j ≠ i ∧ x ∈ (w j).letters := by
  have hown := (h.lived j).own
  rcases hsent with hsend | ⟨hbroadcast, hne⟩
  · obtain ⟨hsigner, hother, -⟩ := hown.send hsend
    rw [Group.context_me] at hsigner hother
    exact ⟨hsigner, fun heq => hother (heq ▸ rfl), Life.mem_letters.2 (.inl ⟨_, hsend⟩)⟩
  · obtain ⟨hsigner, -⟩ := hown.broadcast hbroadcast
    rw [Group.context_me] at hsigner
    exact ⟨hsigner, hne, Life.mem_letters.2 (.inr hbroadcast)⟩

theorem Reachable.heard_from (h : Reachable g ∅ w) {i : Fin n} {x : Letter}
    (hx : x ∈ (w i).heard) :
    ∃ j, x.signed.signer = g.key j ∧ j ≠ i ∧ x ∈ (w j).letters := by
  obtain ⟨j, hsent⟩ := h.sent_of_heard hx
  exact ⟨j, h.signer_of_sent hsent⟩

theorem Reachable.foreign (h : Reachable g ∅ w) (i : Fin n) : Foreign (g.context i) (w i) := by
  intro x hx
  obtain ⟨j, hsigner, hne, -⟩ := h.heard_from hx
  rw [hsigner, Group.context_me]
  exact fun heq => hne (g.key_inj.1 heq)

/-- Without traitors, a message that was heard was sent by its signer. -/
theorem Reachable.letter_of_signer (h : Reachable g ∅ w) {i j : Fin n} {x : Letter}
    (hx : x ∈ (w i).heard) (hsigner : x.signed.signer = g.key j) : x ∈ (w j).letters := by
  obtain ⟨k, hk, -, hletter⟩ := h.heard_from hx
  obtain rfl : k = j := g.key_inj.1 (hk.symm.trans hsigner)
  exact hletter

theorem Reachable.broadcast_of_letter (h : Reachable g ∅ w) {i : Fin n} {x : Letter}
    (hx : x ∈ (w i).letters) (hkind : x.kind.isProposal) : .broadcast x ∈ (w i).done := by
  rcases Life.mem_letters.1 hx with ⟨receiver, hsend⟩ | hbroadcast
  · obtain ⟨-, -, hnewView | hvote⟩ := (h.lived i).own.send hsend
    · rw [hnewView] at hkind
      cases hkind
    · rw [hvote] at hkind
      cases hkind
  · exact hbroadcast

theorem Reachable.send_of_letter (h : Reachable g ∅ w) {i : Fin n} {x : Letter}
    (hx : x ∈ (w i).letters) (hkind : x.kind.isProposal = false) :
    ∃ receiver, .send receiver x ∈ (w i).done := by
  rcases Life.mem_letters.1 hx with hsend | hbroadcast
  · exact hsend
  · simp [((h.lived i).own.broadcast hbroadcast).2] at hkind

section Proposals

variable {traitors : Finset (Fin n)} {view : View}

theorem Reachable.seat_of_proposal (h : Reachable g traitors w) {i : Fin n} {b : Body}
    (hb : b ∈ (w i).proposals) : g.seat b.view = i :=
  g.leads_iff.1 ((h.lived i).orderly.leads b hb)

/-- All proposals for a view are made by its leader. -/
theorem Reachable.proposals_eq (h : Reachable g traitors w) (view : View) :
    (w.proposals view).length =
      ((w (g.seat view)).proposals.filter fun b => b.view = view).length := by
  rw [World.proposals, List.length_flatten, List.map_ofFn, List.sum_ofFn]
  refine Finset.sum_eq_single (g.seat view) (fun i _ hne => ?_) (by simp)
  rw [Function.comp_apply, List.length_eq_zero_iff, List.filter_eq_nil_iff]
  intro b hb hview
  exact hne (by rw [← of_decide_eq_true hview, h.seat_of_proposal hb])

theorem Reachable.length_proposals_le (h : Reachable g traitors w) (view : View) :
    (w.proposals view).length ≤ 1 := by
  rw [h.proposals_eq]
  exact (h.lived _).orderly.length_filter_le view

theorem Reachable.proposals_eq_singleton (h : Reachable g traitors w) {b : Body}
    (hb : b ∈ w.proposals view) : w.proposals view = [b] := by
  have hle := h.length_proposals_le view
  match hlist : w.proposals view with
  | [] => rw [hlist] at hb; cases hb
  | [c] =>
    rw [hlist, List.mem_singleton] at hb
    rw [hb]
  | _ :: _ :: _ =>
    rw [hlist] at hle
    simp at hle

theorem Reachable.unique_proposal (h : Reachable g traitors w) {b b' : Body}
    (hb : b ∈ w.proposals view) (hb' : b' ∈ w.proposals view) : b = b' := by
  rw [h.proposals_eq_singleton hb', List.mem_singleton] at hb
  exact hb

end Proposals

end Concord.Core
