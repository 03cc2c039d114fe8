import Concord.Proofs.Chained.Steps

/-!
The order in which a core of the chained protocol signs and delivers. In each view a core signs its
NewView, then its proposal, then its vote. Only nodes of later views than the last delivery are
delivered.
-/

namespace Concord.Core.Chained

open Handler Relation

variable {σ : Type} {ctx : Context σ} {l l' : Life Chain σ}

theorem kept_of_lived {P : Life Chain σ → Prop} {l : Life (Memory .chained) σ} (h : Lived ctx l)
    (born : ∀ app, P (Life.initial (v := .chained) ctx.scheme app))
    (move : ∀ {l l'}, Move ctx l l' → P l → P l') (accept : ∀ {l l'}, Accept ctx l l' → P l → P l')
    (propose : ∀ {l l'}, Propose ctx l l' → P l → P l') : P l := by
  induction h with
  | born app => exact born app
  | retouch app _ ih => exact move .retouch ih
  | @take l input hlived hpermits ih =>
    have hcourse := course_of_lived hlived hpermits
    exact move .note (hcourse.keeps ih move accept propose)

section Letters

def turn : MessageKind → Nat
  | .generic => 1
  | .vote => 2
  | _ => 0

/-- The position of a kind of message in the order of all views and kinds. -/
def place (view : View) (kind : MessageKind) : Nat := 3 * view.toNat + turn kind

def here (l : Life Chain σ) : Nat :=
  place l.state.view (if l.state.proposal.isSome then .vote else .newView)

theorem turn_le (kind : MessageKind) : turn kind ≤ 2 := by
  cases kind <;> decide

theorem place_lt_of_view {v w : View} (h : v < w) (kind kind' : MessageKind) :
    place v kind < place w kind' := by
  have hlt := UInt64.lt_iff_toNat_lt.1 h
  have hturn := turn_le kind
  unfold place
  omega

theorem here_eq_of_none (h : l.state.proposal = none) : here l = place l.state.view .newView := by
  simp [here, h]

theorem here_eq_of_some {node : Body} (h : l.state.proposal = some node) :
    here l = place l.state.view .vote := by
  simp [here, h]

theorem Move.here_le (h : Move ctx l l') : here l ≤ here l' := by
  rcases h.ascends with hlt | ⟨heq, hsome⟩
  · exact Nat.le_of_lt (place_lt_of_view hlt _ _)
  · unfold here
    rw [heq]
    by_cases hproposal : l.state.proposal.isSome
    · exact Nat.le_of_eq (by rw [if_pos hproposal, if_pos (hsome hproposal)])
    · rw [if_neg hproposal]
      exact Nat.le_add_right _ _

theorem Nominates.here_lt {node : Body} (h : Nominates ctx l l' node) :
    here l < place l'.state.view .generic := by
  rcases UInt64.lt_or_eq_of_le h.le_view with hlt | heq
  · exact place_lt_of_view hlt _ _
  · rw [here_eq_of_none (h.free heq), heq]
    exact Nat.lt_succ_self _

theorem Nominates.here_eq {node : Body} (h : Nominates ctx l l' node) :
    here l' = place l'.state.view .vote :=
  here_eq_of_some h.proposal

/-- The places of the signed letters strictly increase. -/
def Written (l : Life Chain σ) : Prop :=
  Rising (fun x => place x.body.view x.kind) (here l) l.written

theorem Written.move (h : Written l) (hmove : Move ctx l l') : Written l' := by
  have hle := hmove.here_le
  rcases hmove.written with hsame | ⟨hblank, hstate, hmore⟩
  · rw [Written, hsame]
    exact h.mono hle
  · have hplace : ∀ x ∈ ctx.signed .newView (newViewBody l.state l.memory),
        place x.body.view x.kind = place l.state.view .newView := fun x hx => by
      have hwrote := Context.mem_signed.1 hx
      rw [hwrote.body_eq, hwrote.kind_eq]
      rfl
    unfold Written
    rw [hmore]
    refine h.append (Context.pairwise_signed _ _) (fun x hx y hy => ?_) (fun y hy => ?_) hle
    · exact hplace y hy ▸ place_lt_of_view (hblank x hx) _ _
    · rw [hplace y hy, here, hstate]
      exact Nat.le_add_right _ _

theorem Written.nominate {node : Body} (h : Written l) (hnominates : Nominates ctx l l' node) :
    Written l' := by
  obtain ⟨xs, hwritten, hxs⟩ := hnominates.written
  have hgeneric : ∀ x ∈ ctx.signed .generic node,
      place x.body.view x.kind = place l'.state.view .generic := fun x hx => by
    have hwrote := Context.mem_signed.1 hx
    rw [hwrote.body_eq, hwrote.kind_eq, hnominates.view]
  have hvote : ∀ x ∈ ctx.signed .vote (voteBody node),
      place x.body.view x.kind = place l'.state.view .vote := fun x hx => by
    have hwrote := Context.mem_signed.1 hx
    rw [hwrote.body_eq, hwrote.kind_eq, ← hnominates.view]
    rfl
  -- The proposal comes before the vote for it.
  have hturns : place l'.state.view .generic < place l'.state.view .vote := Nat.lt_succ_self _
  have hsince := hnominates.here_lt
  have hhere := hnominates.here_eq
  unfold Written
  rw [hwritten]
  refine h.append_later ?_ (fun y hy => ?_) (fun y hy => ?_) (by omega)
  · refine List.Pairwise.sublist hxs (List.pairwise_append.2
      ⟨Context.pairwise_signed _ _, Context.pairwise_signed _ _, fun x hx y hy => ?_⟩)
    rw [hgeneric x hx, hvote y hy]
    exact hturns
  · rcases List.mem_append.1 (hxs.subset hy) with hy | hy
    · rw [hgeneric y hy]
      exact hsince
    · rw [hvote y hy]
      exact Nat.lt_trans hsince hturns
  · rw [hhere]
    rcases List.mem_append.1 (hxs.subset hy) with hy | hy
    · exact hgeneric y hy ▸ Nat.le_of_lt hturns
    · exact Nat.le_of_eq (hvote y hy)

theorem written_of_lived {l : Life (Memory .chained) σ} (h : Lived ctx l) : Written l :=
  kept_of_lived h (fun _ => .nil) (fun hmove hold => hold.move hmove)
    (fun haccept hold => haccept.nominates.elim fun _ => hold.nominate)
    (fun hpropose hold => hpropose.nominates.elim fun _ => hold.nominate)

end Letters

section Deliveries

def bound (lastDecided : Option View) : Nat := lastDecided.elim 0 fun view => view.toNat + 1

/-- A core delivers nothing, or one payload of a later view than the last delivery. -/
inductive Decides (l l' : Life Chain σ) : Prop
  | none :
      l'.decisions = l.decisions → l'.state.decided = l.state.decided →
      l'.memory.lastDecided = l.memory.lastDecided → Decides l l'
  | one {view : View} :
      bound l.memory.lastDecided < view.toNat + 1 → l'.decisions = l.decisions ++ [view] →
      l'.state.decided = l.state.decided + 1 → l'.memory.lastDecided = some view → Decides l l'

theorem Move.decides (h : Move ctx l l') : Decides l l' := by
  cases h with
  | hear | note | retouch | stop => exact .none rfl rfl rfl
  | gather hgather => cases hgather; exact .none (by simp) rfl rfl
  | certify hcertify =>
    cases hcertify
    exact .none (by simp [List.filterMap_cons]) rfl rfl
  | errand =>
    refine .none ?_ rfl rfl
    rw [Life.decisions_after]
    dsimp only
    split <;> simp [List.filterMap_cons]
  | report => exact .none (by simp [decisions_posted]) rfl rfl
  | _ => exact .none (by simp [List.filterMap_cons]) rfl rfl

theorem Walk.decides {node : Body} (h : Walk ctx node l l') : Decides l l' := by
  have hdecided : (raisedBy node l).state.decided = l.state.decided := by
    unfold raisedBy
    split <;> rfl
  have hlast : (raisedBy node l).memory.lastDecided = l.memory.lastDecided := by
    unfold raisedBy
    split <;> rfl
  have hdecisions : (raisedBy node l).decisions = l.decisions :=
    congrArg (List.filterMap _) (raisedBy_done node l)
  cases h with
  | loose => exact .none rfl rfl rfl
  | one => exact .none hdecisions hdecided hlast
  | two | stale => exact .none hdecisions (by simpa [lockedBy] using hdecided) hlast
  | @final b1 b0 b _ _ _ _ hlater =>
    have hbound : bound l.memory.lastDecided < b.view.toNat + 1 := by
      cases hdecision : l.memory.lastDecided with
      | none => exact Nat.succ_pos _
      | some decided => exact Nat.succ_lt_succ (UInt64.lt_iff_toNat_lt.1 (hlater decided hdecision))
    refine .one hbound ?_ ?_ rfl
    · rw [settled, Life.decisions_after]
      exact congrArg (· ++ [b.view]) hdecisions
    · simpa [settled, lockedBy] using hdecided

theorem Decides.of_start {l₁ : Life Chain σ} (h : Decides l₁ l')
    (hdecisions : l₁.decisions = l.decisions) (hdecided : l₁.state.decided = l.state.decided)
    (hlast : l₁.memory.lastDecided = l.memory.lastDecided) : Decides l l' := by
  cases h with
  | none h1 h2 h3 => exact .none (h1.trans hdecisions) (h2.trans hdecided) (h3.trans hlast)
  | one hlater h1 h2 h3 => exact .one (hlast ▸ hlater) (hdecisions ▸ h1) (hdecided ▸ h2) h3

theorem Adopt.decides {node : Body} (h : Adopt ctx node l l') : Decides l l' := by
  cases h with
  | last | unsigned => exact .none rfl rfl rfl
  | leading _ _ hwalk => exact hwalk.decides.of_start rfl rfl rfl
  | voting _ _ _ hwalk => exact hwalk.decides.of_start (by simp [stored, Life.decisions]) rfl rfl

theorem Accept.decides (h : Accept ctx l l') : Decides l l' := by
  cases h with
  | mk _ _ _ _ _ hadopt =>
    exact hadopt.decides.of_start (by simp [List.filterMap_cons]) (by simp) rfl

theorem Propose.decides (h : Propose ctx l l') : Decides l l' := by
  cases h with
  | mk _ _ _ _ _ _ hadopt =>
    exact hadopt.decides.of_start (by simp [List.filterMap_cons]) rfl rfl

/-- The views of the deliveries strictly increase, and the counter is their number. -/
structure InOrder (l : Life Chain σ) : Prop where
  rising : Rising (fun view : View => view.toNat + 1) (bound l.memory.lastDecided) l.decisions
  decided : l.state.decided = l.decisions.length

theorem InOrder.decide (h : InOrder l) (hdecides : Decides l l') : InOrder l' := by
  cases hdecides with
  | none hdecisions hdecided hlast =>
    exact ⟨hdecisions ▸ hlast ▸ h.rising, by rw [hdecisions, hdecided, h.decided]⟩
  | @one view hlater hdecisions hdecided hlast =>
    refine ⟨?_, by rw [hdecisions, hdecided, h.decided, List.length_append, List.length_singleton]⟩
    rw [hdecisions, hlast]
    exact h.rising.append_later (List.pairwise_singleton _ _) (by simpa using hlater)
      (by simp [bound]) (Nat.le_of_lt hlater)

theorem inOrder_of_lived {l : Life (Memory .chained) σ} (h : Lived ctx l) : InOrder l :=
  kept_of_lived h (fun _ => ⟨.nil, rfl⟩) (fun hmove hold => hold.decide hmove.decides)
    (fun haccept hold => hold.decide haccept.decides)
    (fun hpropose hold => hold.decide hpropose.decides)

end Deliveries

end Concord.Core.Chained
