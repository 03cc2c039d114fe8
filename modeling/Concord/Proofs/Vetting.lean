import Concord.Proofs.Life

/-!
The data that an application has vouched for: it produced the data for a proposal of the core, or it
accepted the data in a proposal of another member that the core took up.
-/

namespace Concord.Core

variable {v : Variant} {σ : Type}

section Turns

variable {ctx : Context σ} {app₀ : σ} {effects effects' : List Effect}

/-- The states of the application in a turn: the initial one, and those after a delivery of the
turn. -/
inductive AskedIn (ctx : Context σ) (app₀ : σ) (effects : List Effect) : σ → Prop
  | start : AskedIn ctx app₀ effects app₀
  | told {view : View} {payload : Payload} :
      .deliver view payload ∈ effects →
      AskedIn ctx app₀ effects (ctx.application.deliver app₀ view payload)

/-- In a turn the core proposes data that its application produced. -/
structure Offers (ctx : Context σ) (app₀ : σ) (effects : List Effect) (node : Body) : Prop where
  proposed : ∃ e ∈ effects, e.proposal? = some node
  produced : ∃ app app', AskedIn ctx app₀ effects app ∧
    ctx.application.produce app = (.ok node.payload.data, app')

theorem AskedIn.mono {app : σ} (h : AskedIn ctx app₀ effects app) (hsub : effects ⊆ effects') :
    AskedIn ctx app₀ effects' app := by
  cases h with
  | start => exact .start
  | told hdeliver => exact .told (hsub hdeliver)

theorem Offers.mono {node : Body} (h : Offers ctx app₀ effects node) (hsub : effects ⊆ effects') :
    Offers ctx app₀ effects' node := by
  obtain ⟨⟨e, he, hproposal⟩, app, app', happ, hproduce⟩ := h
  exact ⟨⟨e, hsub he, hproposal⟩, app, app', happ.mono hsub, hproduce⟩

theorem Context.accepts_of_checkProposal {s : State} {app : σ} {m : SignedBody}
    {extendsLock : Certificate → Bool} (h : ctx.checkProposal s app m extendsLock = .ok ()) :
    ctx.application.accepts app m.body.payload.data := by
  unfold checkProposal at h
  split at h
  · cases h
  · split at h
    · cases h
    · split at h
      · cases h
      · next haccepts => simpa using haccepts

end Turns

variable {ctx : Context σ} {l : Life (Memory v) σ} {input : Input}

/-- The proposal in the envelope becomes the proposal of a view in which the core had none. -/
structure TakesUp (ctx : Context σ) (l : Life (Memory v) σ) (envelope : Envelope)
    (m : SignedBody) : Prop where
  read : ctx.receive envelope = .ok m
  free : l.state.view < m.view ∨ l.state.proposal = none
  held : (l.machine.step ctx (.feed envelope)).machine.state.proposal = some m.body

/-- The application has vouched for data if it accepts the data in a proposal that the core takes
up, or produced it for a proposal of the core. -/
inductive VouchedBy (ctx : Context σ) (l : Life (Memory v) σ) (effects : List Effect) :
    Input → Bytes → Prop
  | accepted {envelope : Envelope} {m : SignedBody} :
      TakesUp ctx l envelope m → ctx.application.accepts l.app m.body.payload.data →
      VouchedBy ctx l effects (.feed envelope) m.body.payload.data
  | produced {input : Input} {node : Body} :
      Offers ctx l.app effects node → VouchedBy ctx l effects input node.payload.data

def Vouches (ctx : Context σ) (l : Life (Memory v) σ) (input : Input) (data : Bytes) : Prop :=
  VouchedBy ctx l (l.machine.step ctx input).effects input data

/-- The lives of a core, with the data that its application has vouched for. -/
inductive Vetted (ctx : Context σ) : Life (Memory v) σ → (Bytes → Prop) → Prop
  | born (app : σ) : Vetted ctx (Life.initial ctx.scheme v app) fun _ => False
  | take {l : Life (Memory v) σ} {vetted : Bytes → Prop} (input : Input) :
      Vetted ctx l vetted → l.Permits input →
      Vetted ctx (l.take ctx input) fun data => vetted data ∨ Vouches ctx l input data
  | retouch {l : Life (Memory v) σ} {vetted : Bytes → Prop} (app : σ) :
      Vetted ctx l vetted → Vetted ctx { l with app := app } vetted

theorem Vetted.lived {vetted : Bytes → Prop} (h : Vetted ctx l vetted) : Lived ctx l := by
  induction h with
  | born app => exact .born app
  | take input _ hpermits ih => exact ih.take input hpermits
  | retouch app _ ih => exact ih.retouch app

/-- Every life of a core is vetted. -/
theorem Lived.exists_vetted (h : Lived ctx l) : ∃ vetted, Vetted ctx l vetted := by
  induction h with
  | born app => exact ⟨_, .born app⟩
  | take input _ hpermits ih =>
    obtain ⟨vetted, hvetted⟩ := ih
    exact ⟨_, hvetted.take input hpermits⟩
  | retouch app _ ih =>
    obtain ⟨vetted, hvetted⟩ := ih
    exact ⟨vetted, hvetted.retouch app⟩

end Concord.Core
