import Concord.Proofs.Certificates
import Concord.Proofs.Chained.Tree
import Concord.Proofs.Codec
import Concord.Proofs.Life
import Mathlib.Data.Finset.Card
import Mathlib.Data.Fintype.Card

/-!
Groups of members that run the protocol, and their reachable worlds. Messages reach only the members
that they were sent to, after any delay, any number of times and in any order. Timers and postponed
tasks fire at any time. Traitors can send any messages for which they need no signature of a loyal
member.
-/

namespace Concord.Core

open Crypto Relation

/-- At least four members with distinct keys, their signers and their applications. -/
structure Group (n : Nat) (σ : Type) where
  scheme : Scheme
  member : Fin n → Member
  key_injective : Function.Injective fun i => (member i).key
  signer : Fin n → Signer
  signer_key : ∀ i, (signer i).key = (member i).key
  application : Fin n → Application σ
  four_le : 4 ≤ n

/-- The core of each member with its history. The cores of traitors are not used. -/
abbrev World (n : Nat) (v : Variant) (σ : Type) := Fin n → Life (Memory v) σ

namespace Group

variable {n : Nat} {σ : Type} (g : Group n σ)

def key (i : Fin n) : PublicKey := (g.member i).key

def committee : Committee where
  members := List.ofFn g.member
  members_ne_nil h := by
    have := g.four_le
    have hlength := congrArg List.length h
    simp only [List.length_ofFn, List.length_nil] at hlength
    omega

def context (i : Fin n) : Context σ := ⟨g.scheme, g.signer i, g.committee, g.application i⟩

def seat (view : View) : Fin n :=
  ⟨leaderIndex view n, Nat.mod_lt _ (Nat.lt_of_lt_of_le (by decide) g.four_le)⟩

@[simp] theorem context_scheme (i : Fin n) : (g.context i).scheme = g.scheme := rfl

@[simp] theorem context_me (i : Fin n) : (g.context i).me = g.key i := g.signer_key i

@[simp] theorem context_leader (i : Fin n) (view : View) :
    (g.context i).leader view = g.member (g.seat view) := by
  simp [Context.leader, context, committee, Committee.leader, Committee.size, seat]

@[simp] theorem key_inj {i j : Fin n} : g.key i = g.key j ↔ i = j := g.key_injective.eq_iff

@[simp] theorem leads_iff {i : Fin n} {view : View} :
    (g.context i).leads view ↔ g.seat view = i := by
  rw [Context.leads, context_leader, context_me, decide_eq_true_eq]
  exact g.key_inj

@[simp] theorem contains_key (i j : Fin n) : (g.context i).committee.contains (g.key j) := by
  simp only [context, committee, Committee.contains, List.any_eq_true, List.mem_ofFn]
  exact ⟨g.member j, ⟨j, rfl⟩, by simp [key]⟩

theorem seated_context (i : Fin n) : (g.context i).Seated where
  four_le := by simpa [context, committee, Committee.size] using g.four_le
  contains_me := by simp

theorem quorum_le_of_isQuorum {i : Fin n} {votes : Nat}
    (h : (g.context i).committee.isQuorum votes) : n - n / 3 - 1 ≤ votes := by
  simpa [context, committee, Committee.isQuorum, Committee.size, hasQuorum, quorumThreshold]
    using h

end Group

section Runs

variable {n : Nat} {v : Variant} {σ : Type}

def Sent (g : Group n σ) (w : World n v σ) (sender receiver : Fin n) (x : Letter) : Prop :=
  .send (g.member receiver) x ∈ (w sender).done ∨
    .broadcast x ∈ (w sender).done ∧ sender ≠ receiver

def claims (scheme : Scheme) (x : Letter) : List (PublicKey × Digest × Signature) :=
  (x.signed.signer, x.body.sealHash scheme, x.signed.sealSignature) ::
    (x.signed.signer, x.body.payload.hash scheme, x.signed.voteSignature) ::
      x.body.justify.votes.map fun vote =>
        (vote.signer, x.body.justify.payload.hash scheme, vote.signature)

/-- Every valid signature of a loyal member in the envelope was sent by a loyal member before. -/
def Forgeable (g : Group n σ) (traitors : Finset (Fin n)) (w : World n v σ) (envelope : Envelope) :
    Prop :=
  ∀ m, envelope.open? = .ok m → ∀ claim ∈ claims g.scheme ⟨envelope.kind, m⟩,
    ∀ i ∉ traitors, claim.1 = g.key i → g.scheme.verify claim.1 claim.2.1 claim.2.2 →
      ∃ j ∉ traitors, ∃ x ∈ (w j).letters, claim ∈ claims g.scheme x

/-- The inputs of a loyal member: messages that loyal members sent it, envelopes that traitors can
make, its own tasks, and timers at any time. -/
inductive Admits (g : Group n σ) (traitors : Finset (Fin n)) (w : World n v σ) (i : Fin n) :
    Input → Prop
  | begin : Admits g traitors w i .begin
  | timeout : Admits g traitors w i .timeout
  | shutdown : Admits g traitors w i .shutdown
  | due {view : View} {task : Task} :
      .postpone view task ∈ (w i).done → Admits g traitors w i (.due view task)
  | sent {j : Fin n} {x : Letter} :
      j ∉ traitors → Sent g w j i x → x.body.Fits → Admits g traitors w i (.feed x.envelope)
  | forged {envelope : Envelope} :
      traitors.Nonempty → Forgeable g traitors w envelope →
      Admits g traitors w i (.feed envelope)

/-- The worlds that loyal members come to. Between inputs an application may change on its own. -/
inductive Reachable (g : Group n σ) (traitors : Finset (Fin n)) : World n v σ → Prop
  | init (app : Fin n → σ) : Reachable g traitors fun i => Life.initial g.scheme v (app i)
  | take {w : World n v σ} {i : Fin n} {input : Input} :
      Reachable g traitors w → i ∉ traitors → Admits g traitors w i input →
      Reachable g traitors (Function.update w i ((w i).take (g.context i) input))
  | retouch {w : World n v σ} {i : Fin n} {app : σ} :
      Reachable g traitors w → Reachable g traitors (Function.update w i { w i with app := app })

/-- The nodes proposed or heard in a run, and the root. -/
inductive World.Rooted (g : Group n σ) (w : World n v σ) : Body → Prop
  | genesis : World.Rooted g w (genesisNode g.scheme)
  | proposed {i : Fin n} {x : Letter} :
      .broadcast x ∈ (w i).done → x.kind = .generic → World.Rooted g w x.body
  | heard {i : Fin n} {m : SignedBody} :
      ⟨.generic, m⟩ ∈ (w i).heard → m.body.computeId g.scheme = m.body.id → World.Rooted g w m.body

/-- The nodes of a run and the dummies on top of them. -/
def World.Node (g : Group n σ) (w : World n v σ) : Body → Prop :=
  Grown g.scheme (World.Rooted g w)

/-- Nodes of the run with equal identities are equal, and no identity is zero. -/
structure CollisionFree (g : Group n σ) (w : World n v σ) : Prop where
  distinct : ∀ {a b}, World.Node g w a → World.Node g w b → a.id = b.id → a = b
  nonzero : ∀ {a}, World.Node g w a → a.id ≠ Digest.zero

/-- The proposals of all members for a view. -/
def World.proposals (w : World n v σ) (view : View) : List Body :=
  (List.ofFn fun i => (w i).proposals.filter fun b => b.view = view).flatten

theorem World.mem_proposals {w : World n v σ} {view : View} {b : Body} :
    b ∈ w.proposals view ↔ (∃ i, b ∈ (w i).proposals) ∧ b.view = view := by
  simp [World.proposals]

section Steps

variable {g : Group n σ} {traitors : Finset (Fin n)} {w w' : World n v σ}

theorem Admits.permits {i : Fin n} {input : Input} (h : Admits g traitors w i input) :
    (w i).Permits input := by
  cases h with
  | due hdone => exact hdone
  | begin | timeout | shutdown | sent | forged => trivial

/-- The core of each member in a reachable world is a lived one. -/
theorem Reachable.lived (h : Reachable g traitors w) (i : Fin n) : Lived (g.context i) (w i) := by
  induction h with
  | init app => exact .born (app i)
  | @take w j input _ _ hadmits ih =>
    rcases eq_or_ne i j with rfl | hne
    · rw [Function.update_self]
      exact .take input ih hadmits.permits
    · rw [Function.update_of_ne hne]
      exact ih
  | @retouch w j app _ ih =>
    rcases eq_or_ne i j with rfl | hne
    · rw [Function.update_self]
      exact .retouch app ih
    · rw [Function.update_of_ne hne]
      exact ih

structure Later (w w' : World n v σ) : Prop where
  heard : ∀ i, (w i).heard ⊆ (w' i).heard
  done : ∀ i, (w i).done ⊆ (w' i).done

theorem later_take (w : World n v σ) (i : Fin n) (input : Input) :
    Later w (Function.update w i ((w i).take (g.context i) input)) := by
  constructor <;> intro j <;> rcases eq_or_ne j i with rfl | hne
  · rw [Function.update_self]
    exact List.subset_append_left _ _
  · rw [Function.update_of_ne hne]
    exact List.Subset.refl _
  · rw [Function.update_self]
    exact List.subset_append_left _ _
  · rw [Function.update_of_ne hne]
    exact List.Subset.refl _

theorem later_retouch (w : World n v σ) (i : Fin n) (app : σ) :
    Later w (Function.update w i { w i with app := app }) := by
  constructor <;> intro j <;> rcases eq_or_ne j i with rfl | hne
  · rw [Function.update_self]
    exact List.Subset.refl _
  · rw [Function.update_of_ne hne]
    exact List.Subset.refl _
  · rw [Function.update_self]
    exact List.Subset.refl _
  · rw [Function.update_of_ne hne]
    exact List.Subset.refl _

theorem Sent.later {i j : Fin n} {x : Letter} (h : Sent g w j i x) (hlater : Later w w') :
    Sent g w' j i x :=
  h.imp (hlater.done j ·) fun ⟨hdone, hne⟩ => ⟨hlater.done j hdone, hne⟩

theorem World.Node.later {b : Body} (h : World.Node g w b) (hlater : Later w w') :
    World.Node g w' b := by
  refine Grown.mono h fun x hx => ?_
  cases hx with
  | genesis => exact .genesis
  | proposed hdone hkind => exact .proposed (hlater.done _ hdone) hkind
  | heard hm hid => exact .heard (hlater.heard _ hm) hid

theorem CollisionFree.earlier (h : CollisionFree g w') (hlater : Later w w') :
    CollisionFree g w :=
  ⟨fun ha hb => h.distinct (ha.later hlater) (hb.later hlater),
    fun ha => h.nonzero (ha.later hlater)⟩

theorem Context.open?_of_receive {ctx : Context σ} {envelope : Envelope} {m : SignedBody}
    (h : ctx.receive envelope = .ok m) : envelope.open? = .ok m := by
  unfold receive at h
  split at h
  · cases h
  · split at h
    · cases h
    · next hopen =>
      repeat' split at h
      all_goals cases h
      exact hopen

theorem Context.receive_of_genuine {ctx : Context σ} {x : Letter} (h : ctx.Genuine x)
    (hfits : x.body.Fits) : ctx.receive x.envelope = .ok x.signed := by
  have hprotocol : x.envelope.checkProtocol = .ok () := if_pos ⟨rfl, rfl⟩
  have hopen : x.envelope.open? = .ok x.signed := Letter.open?_envelope hfits
  have hkind : x.envelope.kind = x.kind := rfl
  unfold receive
  rw [hprotocol, hopen, hkind]
  by_cases hproposal : x.kind.isProposal
  · simp [h.suits hproposal, h.member, h.signed]
  · simp [hproposal, h.member, h.signed]

theorem Context.heard_envelope (ctx : Context σ) {x y : Letter} (hfits : x.body.Fits)
    (h : y ∈ ctx.heard (.feed x.envelope)) : y = x := by
  cases hreceive : ctx.receive x.envelope with
  | error fault => simp [heard, hreceive] at h
  | ok m =>
    have hopen := open?_of_receive hreceive
    rw [Letter.open?_envelope hfits] at hopen
    cases hopen
    have hy : y = ⟨x.envelope.kind, x.signed⟩ := by simpa [heard, hreceive] using h
    exact hy

theorem heard_take {i k : Fin n} {input : Input} {x : Letter} (hadmits : Admits g ∅ w k input)
    (hx : x ∈ (Function.update w k ((w k).take (g.context k) input) i).heard) :
    x ∈ (w i).heard ∨ ∃ j, Sent g w j i x := by
  rcases eq_or_ne i k with rfl | hne
  · rw [Function.update_self] at hx
    rcases List.mem_append.1 hx with hx | hx
    · exact .inl hx
    · cases hadmits with
      | begin | timeout | shutdown | due => cases hx
      | forged hsome => exact absurd hsome (by simp)
      | @sent j y _ hsent hfits =>
        obtain rfl := (g.context i).heard_envelope hfits hx
        exact .inr ⟨j, hsent⟩
  · rw [Function.update_of_ne hne] at hx
    exact .inl hx

theorem heard_retouch {i k : Fin n} {app : σ} {x : Letter}
    (hx : x ∈ (Function.update w k { w k with app := app } i).heard) : x ∈ (w i).heard := by
  rcases eq_or_ne i k with rfl | hne
  · rwa [Function.update_self] at hx
  · rwa [Function.update_of_ne hne] at hx

/-- Without traitors, every message heard was sent to its receiver. -/
theorem Reachable.sent_of_heard (h : Reachable g ∅ w) {i : Fin n} {x : Letter}
    (hx : x ∈ (w i).heard) : ∃ j, Sent g w j i x := by
  induction h with
  | init app => cases hx
  | @take w k input _ _ hadmits ih =>
    obtain ⟨j, hsent⟩ := (heard_take hadmits hx).elim ih id
    exact ⟨j, hsent.later (later_take w k input)⟩
  | @retouch w k app _ ih =>
    obtain ⟨j, hsent⟩ := ih (heard_retouch hx)
    exact ⟨j, hsent.later (later_retouch w k app)⟩

end Steps

section Quorums

/-- Two sets of at least `n - n / 3` and `n - n / 3 - 1` members intersect. -/
theorem exists_mem_inter {n : Nat} {a b : Finset (Fin n)} (hn : 4 ≤ n)
    (ha : n - n / 3 - 1 ≤ a.card) (hb : n - n / 3 ≤ b.card) : ∃ i, i ∈ a ∧ i ∈ b := by
  have hunion : (a ∪ b).card ≤ n := by simpa using Finset.card_le_univ (a ∪ b)
  have hcount := Finset.card_union_add_card_inter a b
  obtain ⟨i, hi⟩ : (a ∩ b).Nonempty := Finset.card_pos.1 (by omega)
  exact ⟨i, Finset.mem_inter.1 hi⟩

variable {g : Group n σ} {w : World n v σ}

theorem Collected.exists_seats {i : Fin n} {heard : List Letter} {kind : MessageKind} {view : View}
    {phase : Phase} {messages : List SignedBody}
    (h : Collected (g.context i) heard kind view messages)
    (hphase : ∀ m ∈ messages, m.phase = phase)
    (hsigner : ∀ m ∈ messages, ∃ j, m.signer = g.key j ∧ j ≠ i) :
    ∃ seats : Finset (Fin n), n - n / 3 - 1 ≤ seats.card ∧ i ∉ seats ∧
      ∀ j ∈ seats, ∃ m ∈ messages, m.signer = g.key j := by
  classical
  have hnodup := h.nodup_signers hphase
  have hcard : (messages.map SignedBody.signer).toFinset.card = messages.length := by
    rw [List.toFinset_card_of_nodup hnodup, List.length_map]
  let seats := Finset.univ.filter fun j => j ≠ i ∧ ∃ m ∈ messages, m.signer = g.key j
  have hsub : (messages.map SignedBody.signer).toFinset ⊆ seats.image g.key := by
    intro key hkey
    obtain ⟨m, hm, rfl⟩ := List.mem_map.1 (List.mem_toFinset.1 hkey)
    obtain ⟨j, hj, hne⟩ := hsigner m hm
    have hseat : j ∈ seats := Finset.mem_filter.2 ⟨Finset.mem_univ j, hne, m, hm, hj⟩
    exact Finset.mem_image.2 ⟨j, hseat, hj.symm⟩
  have hcount : messages.length ≤ seats.card :=
    hcard ▸ (Finset.card_le_card hsub).trans Finset.card_image_le
  exact ⟨seats, (g.quorum_le_of_isQuorum h.quorum).trans hcount, by simp [seats],
    fun j hj => (Finset.mem_filter.1 hj).2.2⟩

end Quorums

end Runs

end Concord.Core
