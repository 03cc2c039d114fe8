import Concord.Proofs.Group

/-!
Traitors and the messages that they can make. A certificate with a single valid vote verifies, so a
traitor can make certificates for any payload, and in the views that it leads the other members
accept them.
-/

namespace Concord.Core

open Crypto

variable {n : Nat} {v : Variant} {σ : Type} {g : Group n σ} {t : Fin n}

/-- A function that signs for member `t`. -/
structure Pen (g : Group n σ) (t : Fin n) where
  stamp : Digest → Signature
  valid : ∀ digest, g.scheme.verify (g.key t) digest (stamp digest)

namespace Pen

variable (pen : Pen g t)

def letter (kind : MessageKind) (body : Body) : Letter :=
  ⟨kind, body, g.key t, pen.stamp (body.payload.hash g.scheme),
    pen.stamp (body.sealHash g.scheme)⟩

def certificate (subject : Subject) : Certificate :=
  ⟨subject, [⟨g.key t, pen.stamp (subject.payload.hash g.scheme)⟩]⟩

theorem verifyCertificate (i : Fin n) (subject : Subject) :
    (g.context i).verifyCertificate (pen.certificate subject) := by
  have hvalid : (g.context i).committee.isValidVote g.scheme (subject.payload.hash g.scheme)
      ⟨g.key t, pen.stamp (subject.payload.hash g.scheme)⟩ := by
    simp [Committee.isValidVote, pen.valid]
  have hsigners : (g.context i).committee.validSigners g.scheme (pen.certificate subject) =
      [g.key t] := by
    simp only [Committee.validSigners, certificate, Certificate.payload]
    rw [List.filter_cons_of_pos hvalid]
    rfl
  simp only [Context.verifyCertificate, Committee.verifyCertificate, Group.context_scheme, hsigners]
  simp [certificate]

theorem fits_certificate {subject : Subject} (h : subject.payload.Fits) :
    (pen.certificate subject).Fits := by
  refine ⟨h, ?_⟩
  change 1 < Wire.Codec.countable
  decide

/-- A broadcast for a view that `t` leads, with a certificate that has no vote but that of `t`. -/
structure Forges (kind : MessageKind) (body : Body) : Prop where
  justify : ∃ subject, body.justify = pen.certificate subject
  level : body.justify.view = body.view
  seat : g.seat body.view = t
  suits : body.phase.kind? = some kind
  fits : body.Fits

section Forges

variable {pen} {kind : MessageKind} {body : Body} (h : pen.Forges kind body)

include h

theorem Forges.forgeable {traitors : Finset (Fin n)} (ht : t ∈ traitors) (w : World n v σ) :
    Forgeable g traitors w (pen.letter kind body).envelope := by
  intro m hopen claim hclaim i hi hkey _
  obtain ⟨subject, hjustify⟩ := h.justify
  rw [Letter.open?_envelope (l := pen.letter kind body) h.fits] at hopen
  cases hopen
  have hown : claim.1 = g.key t := by
    simp only [claims, letter, Letter.body, hjustify, certificate, List.map_cons, List.map_nil,
      List.mem_cons, List.not_mem_nil, or_false] at hclaim
    rcases hclaim with rfl | rfl | rfl <;> rfl
  obtain rfl : i = t := g.key_inj.1 (hkey.symm.trans hown)
  exact absurd ht hi

theorem Forges.receive (i : Fin n) :
    (g.context i).receive (pen.letter kind body).envelope = .ok (pen.letter kind body).signed := by
  have hgenuine : (g.context i).Genuine (pen.letter kind body) :=
    ⟨fun _ => h.suits, g.contains_key i t, by simp [SignedBody.verify, letter, pen.valid]⟩
  exact Context.receive_of_genuine hgenuine h.fits

theorem Forges.screenProposal (i : Fin n) :
    (g.context i).screenProposal (pen.letter kind body).signed = .ok () := by
  have hleader : (g.member (g.seat body.view)).key = g.key t := congrArg g.key h.seat
  have hgap : body.view.gap body.view = 0 := Nat.sub_self _
  simp [Context.screenProposal, letter, SignedBody.view, SignedBody.justify, hleader, h.level, hgap]

theorem Forges.checkProposal {i : Fin n} {s : State} {app : σ}
    (extendsLock : Certificate → Bool)
    (haccepts : (g.application i).accepts app body.payload.data)
    (hlock : ∀ lock, s.locked = some lock → lock.view < body.view) :
    (g.context i).checkProposal s app (pen.letter kind body).signed extendsLock = .ok () := by
  obtain ⟨subject, hjustify⟩ := h.justify
  have hcertified : (g.context i).verifyCertificate (pen.letter kind body).signed.justify := by
    change (g.context i).verifyCertificate body.justify
    rw [hjustify]
    exact pen.verifyCertificate i subject
  have haccepts : (g.context i).application.accepts app
      (pen.letter kind body).signed.body.payload.data := haccepts
  rw [Context.checkProposal, h.screenProposal]
  simp only [hcertified, haccepts]
  cases hlocked : s.locked with
  | none => rfl
  | some lock =>
    have hpast : ¬ (pen.letter kind body).signed.view ≤ lock.view :=
      UInt64.not_le.2 (hlock lock hlocked)
    simp [hpast]

theorem Forges.take {i : Fin n} {l : Life (Memory v) σ} (hrunning : l.state.status = .running) :
    l.take (g.context i) (.feed (pen.letter kind body).envelope) =
      (Life.after { l with heard := l.heard ++ [pen.letter kind body] } (Handler.exec
        (Machine.dispatch (g.context i) kind (pen.letter kind body).signed) l.turn).2).noted := by
  have htold : l.told (g.context i) (.feed (pen.letter kind body).envelope) =
      { l with heard := l.heard ++ [pen.letter kind body] } := by
    simp only [Life.told, Context.heard, h.receive i]
    rfl
  rw [Life.take, Life.changed_feed hrunning (h.receive i), htold]
  rfl

end Forges

end Pen

/-- In a reachable world, a traitor may feed a forgery to any loyal member. -/
theorem Reachable.feed {traitors : Finset (Fin n)} {w : World n v σ} {i : Fin n}
    {l : Life (Memory v) σ} {pen : Pen g t} {kind : MessageKind} {body : Body}
    (h : Reachable g traitors (Function.update w i l)) (hi : i ∉ traitors) (ht : t ∈ traitors)
    (hforges : pen.Forges kind body) :
    Reachable g traitors (Function.update w i
      (l.take (g.context i) (.feed (pen.letter kind body).envelope))) := by
  have hadmits : Admits g traitors (Function.update w i l) i
      (.feed (pen.letter kind body).envelope) := .forged ⟨t, ht⟩ (hforges.forgeable ht _)
  simpa using Reachable.take h hi hadmits

/-- A running core in view 0 that has heard nothing and has broadcast nothing. -/
structure Fresh (g : Group n σ) (l : Life (Memory v) σ) : Prop where
  running : l.state.status = .running
  view : l.state.view = 0
  phase : l.state.phase = .newView
  proposal : l.state.proposal = none
  locked : l.state.locked = none
  memory : l.memory = Memory.initial g.scheme v
  quiet : ∀ x, .broadcast x ∉ l.done
  heard : l.heard = []

theorem Context.quiet_posted (ctx : Context σ) (receiver : Member) (kind : MessageKind)
    (body : Body) (x : Letter) : Effect.broadcast x ∉ ctx.posted receiver kind body := by
  intro hx
  obtain ⟨letter, -, heq | ⟨-, heq⟩⟩ := Context.mem_posted.1 hx
  · cases heq
  · cases heq

theorem Handler.best?_empty {ctx : Context σ} {s : State} (h : s.newViews = .empty) :
    Handler.best? ctx s = none := by
  simp [Handler.best?, h, MessageLog.forView, MessageLog.empty]

def Idle (ctx : Context σ) (v : Variant) : Prop :=
  ∀ t : Turn (Memory v) σ, Handler.best? ctx t.state = none →
    ∃ effects, (∀ x, .broadcast x ∉ effects) ∧
      (Handler.exec (protocolOf ctx v).openRound t).2 = { t with effects := t.effects ++ effects }

theorem fresh_begin {i : Fin n} (hidle : Idle (g.context i) v) (app : σ) :
    Fresh g ((Life.initial g.scheme v app).take (g.context i) .begin) := by
  obtain ⟨effects, hquiet, hexec⟩ := hidle
    { (Life.initial g.scheme v app).turn with
      state := State.resetRound { State.initial with status := .running }
      effects := [.resetTimer] }
    (Handler.best?_empty rfl)
  have htake : (Life.initial g.scheme v app).take (g.context i) .begin =
      (Life.after (Life.initial g.scheme v app) { (Life.initial g.scheme v app).turn with
        state := State.resetRound { State.initial with status := .running }
        effects := .resetTimer :: effects }).noted := by
    rw [Life.take, Life.told_of_nil rfl, Life.changed_begin rfl]
    exact congrArg (fun t => Life.noted (Life.after _ t)) hexec
  rw [htake]
  exact ⟨rfl, rfl, rfl, rfl, rfl, rfl, by simpa [Life.noted, Life.initial] using hquiet, rfl⟩

/-- The core has broadcast nothing, and all nodes that it heard satisfy `node`. -/
structure Silent (node : Body → Prop) (l : Life (Memory v) σ) : Prop where
  quiet : ∀ x, .broadcast x ∉ l.done
  heard : ∀ x ∈ l.heard, x.kind = .generic → node x.body

structure Deceived (node : Body → Prop) (view : View) (payload : Payload)
    (l : Life (Memory v) σ) : Prop extends Silent node l where
  delivered : .deliver view payload ∈ l.done

theorem silent_update {node : Body → Prop} {w : World n v σ} {i : Fin n} {l : Life (Memory v) σ}
    (hw : ∀ j, Silent node (w j)) (hl : Silent node l) (j : Fin n) :
    Silent node (Function.update w i l j) := by
  rcases eq_or_ne j i with rfl | hne
  · rwa [Function.update_self]
  · rw [Function.update_of_ne hne]
    exact hw j

theorem node_of_silent {node : Body → Prop} {w : World n v σ} (hw : ∀ j, Silent node (w j))
    {b : Body} (hb : World.Rooted g w b) : b = genesisNode g.scheme ∨ node b := by
  cases hb with
  | genesis => exact .inl rfl
  | @proposed i x hdone => exact absurd hdone ((hw i).quiet x)
  | @heard i m hm => exact .inr ((hw i).heard _ hm rfl)

end Concord.Core
