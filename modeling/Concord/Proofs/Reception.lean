import Concord.Proofs.Basic.Order
import Concord.Proofs.Chained.Order
import Concord.Proofs.Legible

/-!
Letters of loyal members at their receivers. A core signs in its own name, and its broadcasts have
the phase of their kind. Hence every letter passes the stateless checks of all cores with the same
members.
-/

namespace Concord

open Crypto

/-- What the signer signs verifies under its key. -/
def Crypto.Signer.Sound (scheme : Scheme) (signer : Signer) : Prop :=
  ∀ digest signature, signer.sign digest = .ok signature →
    scheme.verify signer.key digest signature

theorem SignedBody.verify_of_sign {scheme : Scheme} {signer : Signer} {body : Body} {m : SignedBody}
    (h : SignedBody.sign scheme signer body = .ok m) (hsound : signer.Sound scheme) :
    m.verify scheme m.signer := by
  unfold SignedBody.sign at h
  cases hvote : signer.sign (body.payload.hash scheme) with
  | error fault => rw [hvote] at h; cases h
  | ok voteSignature =>
    cases hseal : signer.sign (body.sealHash scheme) with
    | error fault => rw [hvote, hseal] at h; cases h
    | ok sealSignature =>
      rw [hvote, hseal] at h
      cases h
      simp [SignedBody.verify, hsound _ _ hvote, hsound _ _ hseal]

namespace Core

section

variable {σ τ : Type} {ctx : Context σ} {ctx' : Context τ} {x : Letter}

/-- The core signed the letter, and the letter has the phase of its kind. -/
structure Context.Authored (ctx : Context σ) (x : Letter) : Prop where
  wrote : ctx.Wrote x.kind x.body x
  suits : ∀ phase, ownPhase? x.kind = some phase → x.body.phase = phase

theorem Context.authored_of_signed {kind : MessageKind} {body : Body}
    (h : x ∈ ctx.signed kind body)
    (hsuits : ∀ phase, ownPhase? kind = some phase → body.phase = phase) : ctx.Authored x := by
  have hwrote := Context.mem_signed.1 h
  obtain rfl := hwrote.kind_eq
  obtain rfl := hwrote.body_eq
  exact ⟨hwrote, hsuits⟩

theorem kind?_of_isProposal {kind : MessageKind} (h : kind.isProposal) :
    ∃ phase, ownPhase? kind = some phase ∧ phase.kind? = some kind := by
  cases kind with
  | newView | vote => cases h
  | prepare | preCommit | commit | decide | generic => exact ⟨_, rfl, rfl⟩

theorem Context.Authored.signed (h : ctx.Authored x) (hsound : ctx.signer.Sound ctx.scheme) :
    x.signed.verify ctx.scheme x.signed.signer := by
  have hbuilt := h.wrote.built
  unfold Context.build Letter.build at hbuilt
  cases hsign : SignedBody.sign ctx.scheme ctx.signer x.body with
  | error fault => rw [hsign] at hbuilt; cases hbuilt
  | ok m =>
    rw [hsign] at hbuilt
    have hx : (⟨x.kind, m⟩ : Letter) = x := Except.ok.inj hbuilt
    obtain rfl : m = x.signed := congrArg Letter.signed hx
    exact SignedBody.verify_of_sign hsign hsound

/-- A letter that a member signed is genuine to every core with the same scheme and members. -/
theorem Context.Authored.genuine (h : ctx.Authored x) (hsound : ctx.signer.Sound ctx.scheme)
    (hscheme : ctx'.scheme = ctx.scheme) (hmember : ctx'.committee.contains ctx.me) :
    ctx'.Genuine x where
  suits hproposal := by
    obtain ⟨phase, hown, hkind⟩ := kind?_of_isProposal hproposal
    have hphase : x.signed.phase = phase := h.suits phase hown
    rw [hphase, hkind]
  member := h.wrote.signer_eq ▸ hmember
  signed := hscheme ▸ h.signed hsound

end

section

variable {γ σ : Type} {ctx : Context σ} {l l' : Life γ σ}

def AllAuthored (ctx : Context σ) (l : Life γ σ) : Prop := ∀ x ∈ l.written, ctx.Authored x

theorem allAuthored_of_nil (h : l.written = []) : AllAuthored ctx l := by
  simp [AllAuthored, h]

theorem AllAuthored.append {xs : List Letter} (h : AllAuthored ctx l)
    (hwritten : l'.written = l.written ++ xs) (hxs : ∀ x ∈ xs, ctx.Authored x) :
    AllAuthored ctx l' := by
  rw [AllAuthored, hwritten]
  exact List.forall_mem_append.2 ⟨h, hxs⟩

theorem AllAuthored.same (h : AllAuthored ctx l) (hsame : l'.written = l.written) :
    AllAuthored ctx l' := fun x hx => h x (hsame ▸ hx)

end

namespace Basic

variable {σ : Type} {ctx : Context σ} {l l' : Life Unit σ}

theorem Move.authored (h : Move ctx l l') (hold : AllAuthored ctx l) : AllAuthored ctx l' := by
  rcases h.written with hsame | ⟨kind, body, hsigns⟩
  · exact hold.same hsame
  · exact hold.append hsigns.written fun x hx => Context.authored_of_signed hx hsigns.suits

theorem Reached.authored (h : Reached ctx l) : AllAuthored ctx l := by
  induction h with
  | born app => exact allAuthored_of_nil rfl
  | move _ hmove ih => exact hmove.authored ih

end Basic

namespace Chained

variable {σ : Type} {ctx : Context σ} {l l' : Life Chain σ}

theorem Move.authored (h : Move ctx l l') (hold : AllAuthored ctx l) : AllAuthored ctx l' := by
  rcases h.written with hsame | ⟨-, -, hmore⟩
  · exact hold.same hsame
  · refine hold.append hmore fun x hx => Context.authored_of_signed hx fun phase hphase => ?_
    exact Option.some.inj hphase

theorem Adopt.authored {node : Body} (h : Adopt ctx node l l') (hold : AllAuthored ctx l) :
    AllAuthored ctx l' := by
  obtain ⟨xs, hmore, hvotes⟩ := h.written
  exact hold.append hmore fun x hx => Context.authored_of_signed (hvotes.subset hx) nofun

theorem Accept.authored (h : Accept ctx l l') (hold : AllAuthored ctx l) : AllAuthored ctx l' := by
  cases h with
  | mk _ _ _ _ _ hadopt => exact hadopt.authored (hold.same (by simp [List.filterMap_cons]))

theorem Propose.authored (h : Propose ctx l l') (hold : AllAuthored ctx l) :
    AllAuthored ctx l' := by
  cases h with
  | @mk tree parentId data app node letter _ _ _ _ _ hnode hwrote hadopt =>
    -- The broadcast is written before the proposer adopts its own node.
    have hauthored : ∀ x ∈ ctx.signed .generic node, ctx.Authored x := fun x hx =>
      Context.authored_of_signed hx fun phase hphase => by
        rw [hnode]
        exact Option.some.inj hphase
    exact hadopt.authored (hold.append (by simp [List.filterMap_cons, hwrote.signed]) hauthored)

theorem authored_of_lived {l : Life (Memory .chained) σ} (h : Lived ctx l) : AllAuthored ctx l :=
  kept_of_lived h (fun _ => allAuthored_of_nil rfl) (fun hmove hold => hmove.authored hold)
    (fun haccept hold => haccept.authored hold) fun hpropose hold => hpropose.authored hold

end Chained

section

variable {v : Variant} {σ : Type} {ctx : Context σ}

theorem Lived.authored {l : Life (Memory v) σ} (h : Lived ctx l) : AllAuthored ctx l := by
  cases v with
  | basic => exact (Basic.reached_of_lived h).2.authored
  | chained => exact Chained.authored_of_lived h

theorem Context.of_ofSettings {scheme : Scheme} {signer : Signer} {application : Application σ}
    {settings : Settings} (h : ofSettings scheme signer application settings = .ok ctx) :
    ctx.scheme = scheme ∧ ctx.signer = signer ∧ ctx.committee.members = settings.members := by
  unfold ofSettings at h
  split at h
  · cases h
  · split at h
    · cases h
    · next committee hcommittee =>
      cases h
      exact ⟨rfl, rfl, members_of_ofMembers hcommittee⟩

end

/-- Let `x` be a letter that a core signed, whose encoding is shorter than `countable`. Every
running core with the same members, of either protocol, decodes it to a message that passes all
stateless checks and dispatches that message. -/
theorem receive_written {v v' : Variant} {σ τ : Type} {scheme : Scheme} {signer signer' : Signer}
    {application : Application σ} {application' : Application τ} {settings settings' : Settings}
    {ctx : Context σ} {ctx' : Context τ}
    (hctx : Context.ofSettings scheme signer application settings = .ok ctx)
    (hctx' : Context.ofSettings scheme signer' application' settings' = .ok ctx')
    (hmembers : settings'.members = settings.members) (hsound : signer.Sound scheme)
    {l : Life (Memory v) σ} (hlived : Lived ctx l) {x : Letter} (hx : x ∈ l.written)
    (hsize : x.envelope.toBytes.length < Wire.Codec.countable)
    {c : Machine v' τ} (hrunning : c.state.status = .running) :
    ∃ envelope, Envelope.ofBytes x.envelope.toBytes = .ok envelope ∧
      ctx'.receive envelope = .ok x.signed ∧
      c.step ctx' (.feed envelope) = c.run (Machine.dispatch ctx' x.kind x.signed) := by
  obtain ⟨hscheme, hsigner, hours⟩ := Context.of_ofSettings hctx
  obtain ⟨hscheme', -, htheirs⟩ := Context.of_ofSettings hctx'
  have hmember : ctx'.committee.contains ctx.me := by
    have hself := (Context.seated_of_ofSettings hctx).contains_me
    rw [Committee.contains, hours] at hself
    rwa [Committee.contains, htheirs, hmembers]
  have hgenuine : ctx'.Genuine x := (hlived.authored x hx).genuine
    (by rwa [hscheme, hsigner]) (hscheme'.trans hscheme.symm) hmember
  have hreceive := Context.receive_of_genuine hgenuine (Letter.fits_of_length hsize)
  refine ⟨x.envelope, Envelope.ofBytes_toBytes (Envelope.fits_of_length hsize), hreceive, ?_⟩
  simp only [Machine.step, hreceive, hrunning, if_true]
  rfl

section Samples

open Legible Cast

def closing : Letter :=
  ((lockedRun 2).written.find? fun x => x.kind = .decide).getD default

theorem sound_signer (i : Nat) : (signer i).Sound scheme := by
  intro digest signature h
  cases h
  exact decide_eq_true rfl

theorem closing_spec : closing ∈ (lockedRun 2).written ∧ closing.kind = .decide ∧
    (Body.codec.encode closing.body).length < 1000 ∧
    (lockedRun 0).machine.state.status = .running := by
  decide +kernel

/-- Member 0 receives a Decide of member 2 as it was sent. -/
theorem receive_closing : closing.kind = .decide ∧
    ∃ envelope, Envelope.ofBytes closing.envelope.toBytes = .ok envelope ∧
      (housed.context 0).receive envelope = .ok closing.signed ∧
      (lockedRun 0).machine.step (housed.context 0) (.feed envelope) =
        (lockedRun 0).machine.run
          (Machine.dispatch (housed.context 0) closing.kind closing.signed) := by
  obtain ⟨hwritten, hkind, hshort, hrunning⟩ := closing_spec
  have hsize : closing.envelope.toBytes.length < Wire.Codec.countable := by
    have hcountable : 1206 < Wire.Codec.countable := by decide
    rw [Letter.length_envelope]
    omega
  exact ⟨hkind, receive_written ofSettings_housed ofSettings_housed rfl (sound_signer 2)
    ((Cast.reachable_play ..).lived 2) hwritten hsize hrunning⟩

end Samples

end Core

end Concord
