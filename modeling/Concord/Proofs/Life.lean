import Concord.Proofs.Handler
import Concord.Proofs.Rising

/-!
A core with its history: the messages that passed the stateless checks, all its effects, and the
states after each input. The history is used in statements only. The inputs of a core are arbitrary.
-/

namespace Concord.Core

open Crypto

namespace State

/-- The state in which a proposal for `view` is recorded. A core that is behind enters `view`
first. -/
def jump (s : State) (view : View) : State :=
  if s.view < view then resetRound { s with view := view } else s

@[simp] theorem jump_status (s : State) (view : View) : (s.jump view).status = s.status := by
  unfold jump
  split <;> rfl

theorem jump_view {s : State} {view : View} (h : s.view ≤ view) : (s.jump view).view = view := by
  unfold jump
  split
  · rfl
  · next hlater => exact UInt64.le_antisymm h (UInt64.not_lt.1 hlater)

@[simp] theorem jump_decided (s : State) (view : View) : (s.jump view).decided = s.decided := by
  unfold jump
  split <;> rfl

@[simp] theorem jump_prepared (s : State) (view : View) :
    (s.jump view).prepared = s.prepared := by
  unfold jump
  split <;> rfl

@[simp] theorem jump_locked (s : State) (view : View) : (s.jump view).locked = s.locked := by
  unfold jump
  split <;> rfl

end State

structure Life (γ σ : Type) where
  state : State
  memory : γ
  app : σ
  /-- The messages that passed all stateless checks. -/
  heard : List Letter
  /-- All effects so far, the earliest first. -/
  done : List Effect
  /-- The state and the memory after each input. -/
  past : List (State × γ)

def Effect.letter? : Effect → Option Letter
  | .send _ letter | .broadcast letter => some letter
  | _ => none

@[simp] def Effect.written? : Effect → Option Letter
  | .wrote letter => some letter
  | _ => none

@[simp] def Effect.decision? : Effect → Option View
  | .deliver view _ => some view
  | _ => none

/-- The proposal in a broadcast Prepare or Generic message. -/
def Effect.proposal? : Effect → Option Body
  | .broadcast letter =>
    if letter.kind = .prepare ∨ letter.kind = .generic then some letter.body else none
  | _ => none

section

variable (receiver : Member) (letter : Letter) (view : View) (task : Task) (qc : Certificate)
  (payload : Payload)

@[simp] theorem Effect.proposal?_send : (send receiver letter).proposal? = none := rfl

@[simp] theorem Effect.proposal?_wrote : (wrote letter).proposal? = none := rfl

@[simp] theorem Effect.proposal?_resetTimer : resetTimer.proposal? = none := rfl

@[simp] theorem Effect.proposal?_postpone : (postpone view task).proposal? = none := rfl

@[simp] theorem Effect.proposal?_certified : (certified qc).proposal? = none := rfl

@[simp] theorem Effect.proposal?_deliver : (deliver view payload).proposal? = none := rfl

end

theorem decisions_posted {σ : Type} (ctx : Context σ) (receiver : Member) (kind : MessageKind)
    (body : Body) : (ctx.posted receiver kind body).filterMap Effect.decision? = [] :=
  List.filterMap_eq_nil_iff.2 (Context.forall_posted (fun _ _ => rfl) fun _ _ _ => rfl)

theorem decisions_announced {σ : Type} (ctx : Context σ) (kind : MessageKind) (body : Body) :
    (ctx.announced kind body).filterMap Effect.decision? = [] :=
  List.filterMap_eq_nil_iff.2 (Context.forall_announced (fun _ _ => rfl) fun _ _ => rfl)

theorem proposals_posted {σ : Type} (ctx : Context σ) (receiver : Member) (kind : MessageKind)
    (body : Body) : (ctx.posted receiver kind body).filterMap Effect.proposal? = [] :=
  List.filterMap_eq_nil_iff.2 (Context.forall_posted (fun _ _ => rfl) fun _ _ _ => rfl)

theorem proposals_announced {σ : Type} {ctx : Context σ} {kind : MessageKind} {body : Body}
    (h : kind ≠ .prepare ∧ kind ≠ .generic) :
    (ctx.announced kind body).filterMap Effect.proposal? = [] := by
  refine List.filterMap_eq_nil_iff.2 (Context.forall_announced (fun _ _ => rfl) ?_)
  intro letter hwrote
  simp [Effect.proposal?, hwrote.kind_eq, h]

def Context.signed {σ : Type} (ctx : Context σ) (kind : MessageKind) (body : Body) : List Letter :=
  match ctx.build kind body with
  | .ok letter => [letter]
  | .error _ => []

section

variable {σ : Type} {ctx : Context σ} {kind : MessageKind} {body : Body} {letter : Letter}

theorem Context.mem_signed : letter ∈ ctx.signed kind body ↔ ctx.Wrote kind body letter := by
  unfold signed
  constructor
  · intro h
    split at h
    · next hbuild => exact List.mem_singleton.1 h ▸ wrote_of_build hbuild
    · cases h
  · intro hwrote
    simp [hwrote.built]

theorem Context.pairwise_signed {r : Letter → Letter → Prop} (kind : MessageKind) (body : Body) :
    (ctx.signed kind body).Pairwise r := by
  unfold signed
  split
  · exact List.pairwise_singleton _ _
  · exact .nil

theorem Context.Wrote.signed (h : ctx.Wrote kind body letter) : ctx.signed kind body = [letter] := by
  simp [Context.signed, h.built]

theorem written_posted (ctx : Context σ) (receiver : Member) (kind : MessageKind) (body : Body) :
    (ctx.posted receiver kind body).filterMap Effect.written? = ctx.signed kind body := by
  unfold Context.posted Context.signed
  cases ctx.build kind body with
  | error fault => rfl
  | ok letter => by_cases hself : receiver.key = ctx.me <;> simp [hself]

theorem written_announced (ctx : Context σ) (kind : MessageKind) (body : Body) :
    (ctx.announced kind body).filterMap Effect.written? = ctx.signed kind body := by
  unfold Context.announced Context.signed
  cases ctx.build kind body <;> rfl

end

/-- The message in an input, if it passes all stateless checks. -/
def Context.heard {σ : Type} (ctx : Context σ) : Input → List Letter
  | .feed envelope =>
    match ctx.receive envelope with
    | .ok m => [⟨envelope.kind, m⟩]
    | .error _ => []
  | _ => []

/-- The phase that messages of a kind must have. A vote may have any. -/
def ownPhase? : MessageKind → Option Phase
  | .newView => some .newView
  | .prepare => some .prepare
  | .preCommit => some .preCommit
  | .commit => some .commit
  | .decide => some .decide
  | .generic => some .generic
  | .vote => none

theorem ownPhase?_of_ne_vote {kind : MessageKind} (h : kind ≠ .vote) :
    ∃ phase, ownPhase? kind = some phase := by
  cases kind with
  | vote => exact absurd rfl h
  | _ => exact ⟨_, rfl⟩

theorem ownPhase?_of_kind? {phase : Phase} {kind : MessageKind} (h : phase.kind? = some kind) :
    ownPhase? kind = some phase := by
  cases phase <;> cases h <;> rfl

/-- The signer is a member, both signatures are valid, and the kind of a broadcast fits its
phase. -/
structure Context.Genuine {σ : Type} (ctx : Context σ) (letter : Letter) : Prop where
  suits : letter.kind.isProposal → letter.signed.phase.kind? = some letter.kind
  member : ctx.committee.contains letter.signed.signer
  signed : letter.signed.verify ctx.scheme letter.signed.signer

def Outcome.turn {v : Variant} {σ : Type} (outcome : Outcome v σ) : Turn (Memory v) σ :=
  ⟨outcome.machine.state, outcome.machine.memory, outcome.machine.app, outcome.effects⟩

namespace Life

section

variable {γ σ : Type}

def turn (l : Life γ σ) : Turn γ σ := ⟨l.state, l.memory, l.app, []⟩

def after (l : Life γ σ) (t : Turn γ σ) : Life γ σ :=
  { l with state := t.state, memory := t.memory, app := t.app, done := l.done ++ t.effects }

@[simp] theorem after_turn (l : Life γ σ) : l.after l.turn = l := by
  simp [after, turn]

def noted (l : Life γ σ) : Life γ σ := { l with past := l.past ++ [(l.state, l.memory)] }

section

variable (l : Life γ σ) (t : Turn γ σ)

@[simp] theorem after_state : (l.after t).state = t.state := rfl

@[simp] theorem after_memory : (l.after t).memory = t.memory := rfl

@[simp] theorem after_heard : (l.after t).heard = l.heard := rfl

@[simp] theorem after_done : (l.after t).done = l.done ++ t.effects := rfl

@[simp] theorem turn_state : l.turn.state = l.state := rfl

@[simp] theorem turn_memory : l.turn.memory = l.memory := rfl

@[simp] theorem turn_app : l.turn.app = l.app := rfl

@[simp] theorem turn_effects : l.turn.effects = [] := rfl

end

/-- The messages that the core sent, in order. -/
def letters (l : Life γ σ) : List Letter := l.done.filterMap Effect.letter?

theorem mem_letters {l : Life γ σ} {x : Letter} : x ∈ l.letters ↔
    (∃ receiver, Effect.send receiver x ∈ l.done) ∨ Effect.broadcast x ∈ l.done := by
  simp only [letters, List.mem_filterMap]
  constructor
  · rintro ⟨effect, hmem, heffect⟩
    cases effect with
    | send receiver letter =>
      obtain rfl : letter = x := Option.some.inj heffect
      exact .inl ⟨receiver, hmem⟩
    | broadcast letter =>
      obtain rfl : letter = x := Option.some.inj heffect
      exact .inr hmem
    | resetTimer | postpone | wrote | certified | deliver => cases heffect
  · rintro (⟨receiver, hmem⟩ | hmem)
    · exact ⟨_, hmem, rfl⟩
    · exact ⟨_, hmem, rfl⟩

/-- The messages that the core signed, in order, sent or not. -/
def written (l : Life γ σ) : List Letter := l.done.filterMap Effect.written?

@[simp] theorem written_after (l : Life γ σ) (t : Turn γ σ) :
    (l.after t).written = l.written ++ t.effects.filterMap Effect.written? := by
  simp [written]

/-- The core signed nothing for a later view than its own. -/
def Timely (l : Life γ σ) : Prop := ∀ x ∈ l.written, x.body.view ≤ l.state.view

theorem Timely.append {l l' : Life γ σ} {xs : List Letter} (h : l.Timely)
    (hwritten : l'.written = l.written ++ xs) (hview : l.state.view ≤ l'.state.view)
    (hxs : ∀ x ∈ xs, x.body.view = l'.state.view) : l'.Timely := fun x hx => by
  rw [hwritten, List.mem_append] at hx
  rcases hx with hx | hx
  · exact UInt64.le_trans (h x hx) hview
  · exact hxs x hx ▸ UInt64.le_refl _

theorem Timely.same {l l' : Life γ σ} (h : l.Timely) (hwritten : l'.written = l.written)
    (hview : l.state.view ≤ l'.state.view) : l'.Timely := by
  have hwritten : l'.written = l.written ++ [] := by rw [hwritten, List.append_nil]
  exact h.append hwritten hview (by simp)

theorem Timely.after_turn {l : Life γ σ} (h : l.Timely) : (l.after l.turn).Timely := by
  rwa [Life.after_turn]

/-- The core signed nothing for its current view. -/
def Blank (l : Life γ σ) : Prop := ∀ x ∈ l.written, x.body.view < l.state.view

theorem blank_entered {l : Life γ σ} {t : Turn γ σ} {view : View}
    (h : t.state.view.next? = some view) (htimely : (l.after t).Timely) :
    (l.after { t with
      state := State.resetRound { t.state with view := view, phase := .newView }
      effects := t.effects ++ [.resetTimer] }).Blank := fun x hx => by
  have hx : x ∈ (l.after t).written := by simpa [List.filterMap_cons] using hx
  exact UInt64.lt_of_le_of_lt (htimely x hx) (View.lt_next h)

/-- The views of the delivered payloads, in order of delivery. -/
def decisions (l : Life γ σ) : List View := l.done.filterMap Effect.decision?

@[simp] theorem decisions_after (l : Life γ σ) (t : Turn γ σ) :
    (l.after t).decisions = l.decisions ++ t.effects.filterMap Effect.decision? := by
  simp [decisions]

def proposals (l : Life γ σ) : List Body := l.done.filterMap Effect.proposal?

theorem proposals_after (l : Life γ σ) (t : Turn γ σ) :
    (l.after t).proposals = l.proposals ++ t.effects.filterMap Effect.proposal? := by
  simp [proposals]

theorem mem_proposals {l : Life γ σ} {b : Body} : b ∈ l.proposals ↔
    ∃ x, Effect.broadcast x ∈ l.done ∧ (x.kind = .prepare ∨ x.kind = .generic) ∧ x.body = b := by
  simp only [proposals, List.mem_filterMap]
  constructor
  · rintro ⟨effect, hmem, heffect⟩
    cases effect with
    | broadcast letter =>
      simp only [Effect.proposal?] at heffect
      split at heffect
      · next hkind => exact ⟨letter, hmem, hkind, Option.some.inj heffect⟩
      · cases heffect
    | send | resetTimer | postpone | wrote | certified | deliver => cases heffect
  · rintro ⟨x, hmem, hkind, rfl⟩
    exact ⟨_, hmem, by simp [Effect.proposal?, hkind]⟩

/-- The views of the proposals strictly increase, and the core leads each of them. -/
structure Orderly (ctx : Context σ) (l : Life γ σ) : Prop where
  increasing : l.proposals.Pairwise fun b b' => b.view < b'.view
  leads : ∀ b ∈ l.proposals, ctx.leads b.view
  le_view : ∀ b ∈ l.proposals, b.view ≤ l.state.view

theorem Orderly.same {ctx : Context σ} {l l' : Life γ σ} (h : l.Orderly ctx)
    (hsame : l'.proposals = l.proposals) (hview : l.state.view ≤ l'.state.view) :
    l'.Orderly ctx :=
  ⟨hsame ▸ h.increasing, hsame ▸ h.leads,
    fun b hb => UInt64.le_trans (h.le_view b (hsame ▸ hb)) hview⟩

theorem Orderly.append {ctx : Context σ} {l l' : Life γ σ} {body : Body} (h : l.Orderly ctx)
    (hmore : l'.proposals = l.proposals ++ [body]) (hleads : ctx.leads l.state.view)
    (hbody : body.view = l.state.view) (hview : l'.state.view = l.state.view)
    (hearlier : ∀ b ∈ l.proposals, b.view < l.state.view) : l'.Orderly ctx := by
  have hmem : ∀ b ∈ l'.proposals, b ∈ l.proposals ∨ b = body := fun b hb => by
    rw [hmore, List.mem_append, List.mem_singleton] at hb
    exact hb
  refine ⟨?_, fun b hb => ?_, fun b hb => ?_⟩
  · rw [hmore, List.pairwise_append]
    refine ⟨h.increasing, List.pairwise_singleton _ _, fun b hb b' hb' => ?_⟩
    rw [List.mem_singleton.1 hb', hbody]
    exact hearlier b hb
  · rcases hmem b hb with hb | rfl
    · exact h.leads b hb
    · exact hbody ▸ hleads
  · rw [hview]
    rcases hmem b hb with hb | rfl
    · exact h.le_view b hb
    · exact hbody ▸ UInt64.le_refl _

theorem Orderly.length_filter_le {ctx : Context σ} {l : Life γ σ} (h : l.Orderly ctx)
    (view : View) : (l.proposals.filter fun b => b.view = view).length ≤ 1 := by
  refine length_filter_le_one h.increasing fun b _ b' _ hb hb' hlt => ?_
  rw [of_decide_eq_true hb, of_decide_eq_true hb'] at hlt
  exact UInt64.lt_irrefl _ hlt

end

variable {v : Variant} {σ : Type}

def machine (l : Life (Memory v) σ) : Machine v σ := ⟨l.state, l.memory, l.app⟩

def initial (scheme : Scheme) (v : Variant) (app : σ) : Life (Memory v) σ :=
  ⟨State.initial, Memory.initial scheme v, app, [], [], []⟩

@[simp] theorem written_initial (scheme : Scheme) (v : Variant) (app : σ) :
    (initial scheme v app).written = [] := rfl

def told (ctx : Context σ) (l : Life (Memory v) σ) (input : Input) : Life (Memory v) σ :=
  { l with heard := l.heard ++ ctx.heard input }

def changed (l : Life (Memory v) σ) (outcome : Outcome v σ) : Life (Memory v) σ :=
  l.after ⟨outcome.machine.state, outcome.machine.memory, outcome.machine.app, outcome.effects⟩

/-- The life of a core after one more input. -/
def take (ctx : Context σ) (l : Life (Memory v) σ) (input : Input) : Life (Memory v) σ :=
  ((l.told ctx input).changed (l.machine.step ctx input)).noted

/-- A task may be due only if the core postponed it. -/
def Permits (l : Life (Memory v) σ) : Input → Prop
  | .due view task => Effect.postpone view task ∈ l.done
  | _ => True

end Life

/-- The lives of a core: from its initial state it takes any permitted inputs, and its application
may change in between. -/
inductive Lived {v : Variant} {σ : Type} (ctx : Context σ) : Life (Memory v) σ → Prop
  | born (app : σ) : Lived ctx (Life.initial ctx.scheme v app)
  | take {l : Life (Memory v) σ} (input : Input) :
      Lived ctx l → l.Permits input → Lived ctx (l.take ctx input)
  | retouch {l : Life (Memory v) σ} (app : σ) : Lived ctx l → Lived ctx { l with app := app }

/-- The lives that extend `l`. -/
inductive Life.Becomes {v : Variant} {σ : Type} (ctx : Context σ) (l : Life (Memory v) σ) :
    Life (Memory v) σ → Prop
  | same : Becomes ctx l l
  | take {l' : Life (Memory v) σ} (input : Input) :
      Becomes ctx l l' → l'.Permits input → Becomes ctx l (l'.take ctx input)
  | retouch {l' : Life (Memory v) σ} (app : σ) :
      Becomes ctx l l' → Becomes ctx l { l' with app := app }

theorem Life.Becomes.lived {v : Variant} {σ : Type} {ctx : Context σ} {l l' : Life (Memory v) σ}
    (h : l.Becomes ctx l') (hl : Lived ctx l) : Lived ctx l' := by
  induction h with
  | same => exact hl
  | take input _ hpermits ih => exact ih.take input hpermits
  | retouch app _ ih => exact ih.retouch app

theorem Life.Becomes.done_subset {v : Variant} {σ : Type} {ctx : Context σ}
    {l l' : Life (Memory v) σ} (h : l.Becomes ctx l') : l.done ⊆ l'.done := by
  induction h with
  | same => exact List.Subset.refl _
  | take input _ _ ih => exact List.subset_append_of_subset_left _ ih
  | retouch app _ ih => exact ih

/-- No message that was heard is signed by the core itself. -/
def Foreign {γ σ : Type} (ctx : Context σ) (l : Life γ σ) : Prop :=
  ∀ x ∈ l.heard, x.signed.signer ≠ ctx.me

theorem Context.leader_of_checkProposal {σ : Type} {ctx : Context σ} {s : State} {app : σ}
    {m : SignedBody} {extendsLock : Certificate → Bool}
    (h : ctx.checkProposal s app m extendsLock = .ok ()) : (ctx.leader m.view).key = m.signer := by
  refine Decidable.byContradiction fun hne => ?_
  simp [checkProposal, screenProposal, hne] at h

theorem Context.genuine_of_receive {σ : Type} {ctx : Context σ} {envelope : Envelope}
    {m : SignedBody} (h : ctx.receive envelope = .ok m) : ctx.Genuine ⟨envelope.kind, m⟩ := by
  unfold receive at h
  split at h
  · cases h
  · split at h
    · cases h
    · next m' _ =>
      split at h
      · cases h
      · next hsuits =>
        split at h
        · cases h
        · next hmember =>
          split at h
          · cases h
          · next hsigned =>
            cases h
            refine ⟨fun hp => ?_, by simpa using hmember, by simpa using hsigned⟩
            simpa [hp] using hsuits

namespace Life

variable {v : Variant} {σ : Type}

/-- The results of an input, one case for each way in which `step` can end. -/
inductive Reaction (ctx : Context σ) (l : Life (Memory v) σ) : Input → Life (Memory v) σ → Prop
  | ignored {input : Input} : Reaction ctx l input (l.told ctx input)
  | stopped : Reaction ctx l .shutdown { l with state := { l.state with status := .stopped } }
  | began :
      l.state.status = .init →
      Reaction ctx l .begin (l.after (Handler.exec (protocolOf ctx v).openRound { l.turn with
        state := State.resetRound { l.state with status := .running }
        effects := [.resetTimer] }).2)
  | read {envelope : Envelope} {m : SignedBody} :
      l.state.status = .running → ctx.receive envelope = .ok m →
      Reaction ctx l (.feed envelope) ((l.told ctx (.feed envelope)).after
        (Handler.exec (Machine.dispatch ctx envelope.kind m) l.turn).2)
  | advanced {input : Input} {view : View} :
      l.state.status = .running → l.state.view.next? = some view →
      Reaction ctx l input (l.after
        (Handler.exec (Handler.advanceTo (protocolOf ctx v).openRound view) l.turn).2)
  | sent {view : View} {receiver : Member} {letter : Letter} :
      l.state.status = .running → l.state.view = view →
      Reaction ctx l (.due view (.send receiver letter)) (l.after
        (Handler.exec (Handler.send ctx receiver letter) l.turn).2)

variable {ctx : Context σ} {l : Life (Memory v) σ}

theorem told_of_nil {input : Input} (h : ctx.heard input = []) : l.told ctx input = l := by
  simp [told, h]

theorem told_cases (ctx : Context σ) (l : Life (Memory v) σ) (input : Input) :
    l.told ctx input = l ∨
      ∃ letter, ctx.Genuine letter ∧ l.told ctx input = { l with heard := l.heard ++ [letter] } := by
  cases input with
  | feed envelope =>
    cases hreceive : ctx.receive envelope with
    | error fault => exact .inl (told_of_nil (by simp [Context.heard, hreceive]))
    | ok m =>
      refine .inr ⟨_, Context.genuine_of_receive hreceive, ?_⟩
      simp [told, Context.heard, hreceive]
  | begin | timeout | due | shutdown => exact .inl (told_of_nil rfl)

theorem turn_run (c : Machine v σ) (h : Handler (Memory v) σ Unit) :
    (c.run h).turn = (Handler.exec h ⟨c.state, c.memory, c.app, []⟩).2 := rfl

theorem turn_begin (hinit : l.state.status = .init) :
    (l.machine.step ctx .begin).turn =
      (Handler.exec (protocolOf ctx v).openRound { l.turn with
        state := State.resetRound { l.state with status := .running }
        effects := [.resetTimer] }).2 := by
  have hstatus : l.machine.state.status = .init := hinit
  simp only [Machine.step, hstatus]
  rw [turn_run, Handler.exec_bind, Handler.exec_resetTimer]
  dsimp only
  rw [Handler.exec_newRound]
  rfl

theorem step_feed {envelope : Envelope} {m : SignedBody} (hrunning : l.state.status = .running)
    (hreceive : ctx.receive envelope = .ok m) :
    l.machine.step ctx (.feed envelope) =
      l.machine.run (Machine.dispatch ctx envelope.kind m) := by
  have hstatus : l.machine.state.status = .running := hrunning
  simp only [Machine.step, hreceive, hstatus, if_true]

inductive Ends (ctx : Context σ) (l : Life (Memory v) σ) : Input → Turn (Memory v) σ → Prop
  | ignored {input : Input} : Ends ctx l input l.turn
  | stopped : Ends ctx l .shutdown { l.turn with state := { l.state with status := .stopped } }
  | began :
      l.state.status = .init →
      Ends ctx l .begin (Handler.exec (protocolOf ctx v).openRound { l.turn with
        state := State.resetRound { l.state with status := .running }
        effects := [.resetTimer] }).2
  | read {envelope : Envelope} {m : SignedBody} :
      l.state.status = .running → ctx.receive envelope = .ok m →
      Ends ctx l (.feed envelope) (Handler.exec (Machine.dispatch ctx envelope.kind m) l.turn).2
  | advanced {input : Input} {view : View} :
      ctx.heard input = [] → l.state.status = .running → l.state.view.next? = some view →
      Ends ctx l input
        (Handler.exec (Handler.advanceTo (protocolOf ctx v).openRound view) l.turn).2
  | sent {view : View} {receiver : Member} {letter : Letter} :
      l.state.status = .running → l.state.view = view →
      Ends ctx l (.due view (.send receiver letter))
        (Handler.exec (Handler.send ctx receiver letter) l.turn).2

theorem ends_nextRound {input : Input} (hrunning : l.state.status = .running)
    (hheard : ctx.heard input = []) : Ends ctx l input (l.machine.nextRound ctx).turn := by
  unfold Machine.nextRound
  cases hnext : l.machine.state.view.next? with
  | none => exact .ignored
  | some view => exact .advanced hheard hrunning hnext

theorem ends_step (input : Input) : Ends ctx l input (l.machine.step ctx input).turn := by
  cases input with
  | begin =>
    by_cases hinit : l.state.status = .init
    · exact turn_begin hinit ▸ .began hinit
    · simp only [Machine.step]
      split
      · exact .ignored
      · exact .ignored
      · next hstatus => exact absurd hstatus hinit
  | feed envelope =>
    cases hreceive : ctx.receive envelope with
    | error fault =>
      simp only [Machine.step, hreceive]
      exact .ignored
    | ok m =>
      by_cases hrunning : l.state.status = .running
      · rw [step_feed hrunning hreceive]
        exact .read hrunning hreceive
      · have hstatus : l.machine.state.status ≠ .running := hrunning
        simp only [Machine.step, hreceive, hstatus, if_false]
        exact .ignored
  | timeout =>
    simp only [Machine.step]
    split
    · next hrunning => exact ends_nextRound hrunning rfl
    · exact .ignored
  | due view task =>
    simp only [Machine.step]
    split
    · next h =>
      cases task with
      | send receiver letter => exact .sent h.1 h.2
      | nextRound => exact ends_nextRound h.1 rfl
    · exact .ignored
  | shutdown => exact .stopped

theorem changed_begin (hinit : l.state.status = .init) :
    l.changed (l.machine.step ctx .begin) =
      l.after (Handler.exec (protocolOf ctx v).openRound { l.turn with
        state := State.resetRound { l.state with status := .running }
        effects := [.resetTimer] }).2 :=
  congrArg l.after (turn_begin hinit)

theorem changed_feed {envelope : Envelope} {m : SignedBody} (hrunning : l.state.status = .running)
    (hreceive : ctx.receive envelope = .ok m) :
    (l.told ctx (.feed envelope)).changed (l.machine.step ctx (.feed envelope)) =
      (l.told ctx (.feed envelope)).after
        (Handler.exec (Machine.dispatch ctx envelope.kind m) l.turn).2 := by
  rw [step_feed hrunning hreceive]
  rfl

theorem reaction_step (input : Input) :
    Reaction ctx l input ((l.told ctx input).changed (l.machine.step ctx input)) := by
  have hchanged : (l.told ctx input).changed (l.machine.step ctx input) =
      (l.told ctx input).after (l.machine.step ctx input).turn := rfl
  rw [hchanged]
  have hends : Ends ctx l input (l.machine.step ctx input).turn := ends_step input
  generalize (l.machine.step ctx input).turn = t at hends ⊢
  cases hends with
  | ignored =>
    have hsame : (l.told ctx input).after l.turn = l.told ctx input := after_turn _
    rw [hsame]
    exact .ignored
  | stopped =>
    have hstopped : Reaction ctx l .shutdown _ := .stopped
    rw [told_of_nil rfl]
    simpa [after, turn] using hstopped
  | began hinit =>
    rw [told_of_nil rfl]
    exact .began hinit
  | read hrunning hreceive => exact .read hrunning hreceive
  | advanced hheard hrunning hnext =>
    rw [told_of_nil hheard]
    exact .advanced hrunning hnext
  | sent hrunning hview =>
    rw [told_of_nil rfl]
    exact .sent hrunning hview

end Life

end Concord.Core
