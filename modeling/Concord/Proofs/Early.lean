import Concord.Proofs.Chained.Ballots
import Concord.Proofs.Oblivious
import Concord.Proofs.Retention

/-!
NewViews that arrive before their view. A core that does not lead its view but leads the next one
logs them, and after the timer fires it is in the same state as if they had arrived afterwards, with
the same effects. The two orders use different handlers, so both are reduced to the log and to the
attempt to propose.
-/

namespace Concord.Core

open Crypto Handler

variable {γ σ : Type} {ctx : Context σ}

namespace MessageLog

variable {log : MessageLog} {m x : SignedBody} {view : View}

theorem accepts_retainFrom (h : view ≤ m.view) : (log.retainFrom view).accepts m = log.accepts m := by
  have hkey : (LogKey.of m).view = m.view := rfl
  simp [accepts, retainFrom, hkey, h]

theorem accepts_insert (h : LogKey.of x ≠ LogKey.of m) : (log.insert m).accepts x = log.accepts x := by
  unfold insert
  split
  · simp [accepts, h]
  · rfl

theorem retainFrom_insert (h : view ≤ m.view) :
    (log.insert m).retainFrom view = (log.retainFrom view).insert m := by
  have hkey : (LogKey.of m).view = m.view := rfl
  unfold insert
  rw [accepts_retainFrom h]
  split
  · simp [retainFrom, hkey, h]
  · rfl

theorem length_forView_insert : (log.forView view).length ≤ ((log.insert m).forView view).length := by
  unfold insert
  split
  · simp [forView]
  · exact Nat.le_refl _

end MessageLog

def keeping (m : SignedBody) (t : Turn γ σ) : Turn γ σ :=
  { t with state := { t.state with newViews := t.state.newViews.insert m } }

def entering (view : View) (t : Turn γ σ) : Turn γ σ :=
  { t with
    state := State.resetRound { t.state with view := view, phase := .newView }
    effects := t.effects ++ [.resetTimer] }

theorem entering_keeping (m : SignedBody) (t : Turn γ σ) :
    entering m.view (keeping m t) = keeping m (entering m.view t) := by
  have hlog : (t.state.newViews.insert m).retainFrom m.view = _ :=
    MessageLog.retainFrom_insert (UInt64.le_refl m.view)
  simp [entering, keeping, State.resetRound, hlog]

/-- The certificate of `m` verifies, or it is of view 0. -/
def Backed (ctx : Context σ) (m : SignedBody) : Prop :=
  0 < m.justify.view → ctx.verifyCertificate m.justify

instance (m : SignedBody) : Decidable (Backed ctx m) := inferInstanceAs (Decidable (_ → _))

section Reports

variable {t : Turn γ σ} {m : SignedBody}

theorem exec_acceptNewView_of_unbacked (h : ¬ Backed ctx m) :
    (exec (acceptNewView ctx m) t).2 = t ∧ (exec (acceptNewView ctx m) t).1 ≠ .ok true := by
  have hbad : 0 < m.justify.view && !ctx.verifyCertificate m.justify := by
    simpa [Backed] using h
  rw [acceptNewView, exec_bind, exec_state]
  simp only [exec_ite, hbad, if_true]
  split
  · exact ⟨rfl, fun hkept => by cases hkept⟩
  · split
    · exact ⟨rfl, fun hkept => by cases hkept⟩
    · exact ⟨rfl, fun hkept => by cases hkept⟩

theorem exec_acceptNewView_of_backed (h : Backed ctx m) (hview : t.state.view ≤ m.view)
    (hnear : t.state.inWindow m.view) :
    exec (acceptNewView ctx m) t = (.ok (t.state.newViews.accepts m), keeping m t) := by
  have hgood : (0 < m.justify.view && !ctx.verifyCertificate m.justify) = false := by
    simpa [Backed] using h
  rw [acceptNewView, exec_bind, exec_state]
  simp only [exec_ite]
  rw [if_neg (UInt64.not_lt.2 hview), hnear, hgood]
  rfl

theorem State.inWindow_next {s : State} {next : View} (h : s.view.next? = some next) :
    s.inWindow next := by
  have hnext := View.toNat_next h
  have hsize : UInt64.size = View.last.toNat + 1 := rfl
  have hlt := next.toNat_lt_size
  refine decide_eq_true (UInt64.le_iff_toNat_le.2 ?_)
  rw [View.toNat_plus, viewWindow]
  omega

theorem best?_of_few {s : State}
    (h : (s.newViews.forView s.view).length < quorumThreshold ctx.committee.size) :
    best? ctx s = none := by
  unfold best?
  split
  · rfl
  · next hlog =>
    rw [hlog] at h
    exact if_neg (by simpa [Committee.isQuorum, hasQuorum] using h)

end Reports

namespace Basic

variable {t : Turn Unit σ}

theorem exec_openRound_of_leads (h : ctx.leads t.state.view) :
    exec (openRound ctx) t = exec (tryLead ctx) t := by
  rw [openRound, exec_bind, exec_state]
  simp only [h, if_true]

end Basic

namespace Chained

variable {t : Turn Chain σ}

theorem exec_openRound_of_leads (h : ctx.leads t.state.view) :
    exec (openRound ctx) t = exec (tryLead ctx) t := by
  rw [openRound, exec_bind, exec_state]
  simp only [h, if_true]
  rfl

theorem exec_tryLead_idle (h : ctx.leads t.state.view = false ∨ best? ctx t.state = none) :
    exec (tryLead ctx) t = (.ok (), t) := by
  rw [tryLead, exec_bind, exec_takeNewViews_idle h]
  rfl

end Chained

section Turns

variable {v : Variant} {t : Turn (Memory v) σ} {m : SignedBody} {next : View}

def lead (ctx : Context σ) : (v : Variant) → Handler (Memory v) σ Unit
  | .basic => Basic.tryLead ctx
  | .chained => Chained.tryLead ctx

theorem onNewView_eq (ctx : Context σ) (v : Variant) (m : SignedBody) :
    (protocolOf ctx v).onNewView m = (do if ← acceptNewView ctx m then lead ctx v) := by
  cases v <;> rfl

theorem exec_openRound_of_leads (h : ctx.leads t.state.view) :
    exec (protocolOf ctx v).openRound t = exec (lead ctx v) t := by
  cases v with
  | basic => exact Basic.exec_openRound_of_leads h
  | chained => exact Chained.exec_openRound_of_leads h

theorem exec_lead_idle (h : ctx.leads t.state.view = false ∨ best? ctx t.state = none) :
    exec (lead ctx v) t = (.ok (), t) := by
  cases v with
  | basic => exact Basic.exec_tryLead_idle h
  | chained => exact Chained.exec_tryLead_idle h

theorem oblivious_lead : Oblivious (lead ctx v) := by
  cases v with
  | basic => exact Basic.oblivious_tryLead
  | chained => exact Chained.oblivious_tryLead

theorem oblivious_onNewView (m : SignedBody) : Oblivious ((protocolOf ctx v).onNewView m) := by
  rw [onNewView_eq]
  refine (oblivious_acceptNewView m).bind fun kept => ?_
  split
  · exact oblivious_lead
  · exact oblivious_pure _

theorem oblivious_openRound : Oblivious (protocolOf ctx v).openRound := by
  cases v with
  | basic => exact Basic.oblivious_openRound
  | chained => exact Chained.oblivious_openRound

def hear (ctx : Context σ) (t : Turn (Memory v) σ) (m : SignedBody) : Turn (Memory v) σ :=
  (exec ((protocolOf ctx v).onNewView m) t).2

def expire (ctx : Context σ) (next : View) (t : Turn (Memory v) σ) : Turn (Memory v) σ :=
  (exec (advanceTo (protocolOf ctx v).openRound next) t).2

theorem expire_of_leads (h : ctx.leads next) :
    expire ctx next t = (exec (lead ctx v) (entering next t)).2 := by
  have hleads : ctx.leads (entering next t).state.view := h
  have hround : exec (protocolOf ctx v).openRound (entering next t) = _ :=
    exec_openRound_of_leads hleads
  rw [expire, exec_advanceTo, ← hround]
  rfl

theorem hear_of_unbacked (h : ¬ Backed ctx m) : hear ctx t m = t := by
  obtain ⟨hsame, hfalse⟩ := exec_acceptNewView_of_unbacked (t := t) h
  rw [hear, onNewView_eq, exec_bind]
  rcases hexec : exec (acceptNewView ctx m) t with ⟨fault | _ | _, t'⟩
  · simpa [hexec] using hsame
  · simpa [hexec] using hsame
  · exact absurd (congrArg Prod.fst hexec) hfalse

/-- A core that does not lead its view logs a backed NewView for the next view, and does nothing
else. -/
theorem hear_ahead (h : Backed ctx m) (hnext : t.state.view.next? = some m.view)
    (hfollows : ctx.leads t.state.view = false) : hear ctx t m = keeping m t := by
  have hidle : exec (lead ctx v) (keeping m t) = (.ok (), keeping m t) :=
    exec_lead_idle (.inl hfollows)
  rw [hear, onNewView_eq, exec_bind, exec_acceptNewView_of_backed h
    (UInt64.le_of_lt (View.lt_next hnext)) (State.inWindow_next hnext)]
  dsimp only
  split
  · rw [hidle]
  · rfl

theorem hear_due (h : Backed ctx m) (hview : t.state.view = m.view)
    (hfresh : t.state.newViews.accepts m) :
    hear ctx t m = (exec (lead ctx v) (keeping m t)).2 := by
  have hnear : t.state.inWindow m.view := hview ▸ State.inWindow_self
  rw [hear, onNewView_eq, exec_bind, exec_acceptNewView_of_backed h (UInt64.le_of_eq hview) hnear,
    hfresh]
  rfl

theorem hear_ahead_cases (hnext : t.state.view.next? = some m.view)
    (hfollows : ctx.leads t.state.view = false) :
    hear ctx t m = t ∨ hear ctx t m = keeping m t := by
  by_cases hbacked : Backed ctx m
  · exact .inr (hear_ahead hbacked hnext hfollows)
  · exact .inl (hear_of_unbacked hbacked)

theorem hear_ahead_steady (hnext : t.state.view.next? = some m.view)
    (hfollows : ctx.leads t.state.view = false) :
    (hear ctx t m).state.view = t.state.view ∧
      ∀ x, LogKey.of x ≠ LogKey.of m →
        (hear ctx t m).state.newViews.accepts x = t.state.newViews.accepts x := by
  cases hear_ahead_cases hnext hfollows with
  | inl hsame =>
    rw [hsame]
    exact ⟨rfl, fun _ _ => rfl⟩
  | inr hkept =>
    rw [hkept]
    exact ⟨rfl, fun _ hne => MessageLog.accepts_insert hne⟩

/-- A NewView for the next view and the timer commute, if the log then holds at most a quorum for
that view. -/
theorem hear_expire (hnext : t.state.view.next? = some m.view)
    (hfollows : ctx.leads t.state.view = false) (hleads : ctx.leads m.view)
    (hfresh : t.state.newViews.accepts m)
    (hfew : ((hear ctx t m).state.newViews.forView m.view).length ≤
      quorumThreshold ctx.committee.size) :
    hear ctx (expire ctx m.view t) m = expire ctx m.view (hear ctx t m) := by
  by_cases hbacked : Backed ctx m
  · rw [hear_ahead hbacked hnext hfollows] at hfew ⊢
    have hcount : (t.state.newViews.forView m.view).length < quorumThreshold ctx.committee.size := by
      change ((t.state.newViews.insert m).forView m.view).length ≤ _ at hfew
      rwa [MessageLog.forView_insert hfresh rfl, List.length_append] at hfew
    have hshort : best? ctx (entering m.view t).state = none := by
      apply best?_of_few
      change ((t.state.newViews.retainFrom m.view).forView m.view).length < _
      rwa [MessageLog.forView_retainFrom (UInt64.le_refl _)]
    have hfresh' : (entering m.view t).state.newViews.accepts m :=
      (MessageLog.accepts_retainFrom (UInt64.le_refl _)).trans hfresh
    calc hear ctx (expire ctx m.view t) m
        = hear ctx (entering m.view t) m := by
          rw [expire_of_leads hleads, exec_lead_idle (.inr hshort)]
      _ = (exec (lead ctx v) (keeping m (entering m.view t))).2 := hear_due hbacked rfl hfresh'
      _ = (exec (lead ctx v) (entering m.view (keeping m t))).2 := by rw [entering_keeping]
      _ = expire ctx m.view (keeping m t) := (expire_of_leads hleads).symm
  · rw [hear_of_unbacked hbacked, hear_of_unbacked hbacked]

theorem foldl_hear_ahead (ms : List SignedBody) (hnext : t.state.view.next? = some next)
    (hfollows : ctx.leads t.state.view = false) (hviews : ∀ m ∈ ms, m.view = next) :
    (ms.foldl (hear ctx) t).state.view = t.state.view ∧
      (t.state.newViews.forView next).length ≤
        ((ms.foldl (hear ctx) t).state.newViews.forView next).length := by
  induction ms generalizing t with
  | nil => exact ⟨rfl, Nat.le_refl _⟩
  | cons m rest ih =>
    obtain rfl : m.view = next := hviews m List.mem_cons_self
    have hrest : ∀ x ∈ rest, x.view = m.view := fun x hx => hviews x (List.mem_cons_of_mem _ hx)
    rw [List.foldl_cons]
    cases hear_ahead_cases hnext hfollows with
    | inl hsame =>
      rw [hsame]
      exact ih hnext hfollows hrest
    | inr hkept =>
      rw [hkept]
      obtain ⟨hview, hcount⟩ := ih (t := keeping m t) hnext hfollows hrest
      exact ⟨hview, Nat.le_trans MessageLog.length_forView_insert hcount⟩

/-- Before the timer fires, the log grows by the backed NewViews, in their order. -/
theorem entries_foldl_hear (ms : List SignedBody) (hnext : t.state.view.next? = some next)
    (hfollows : ctx.leads t.state.view = false) (hviews : ∀ m ∈ ms, m.view = next)
    (hnodup : (ms.map LogKey.of).Nodup) (hfresh : ∀ m ∈ ms, t.state.newViews.accepts m) :
    (ms.foldl (hear ctx) t).state.newViews.entries =
      t.state.newViews.entries ++ ms.filter (Backed ctx ·) := by
  induction ms generalizing t with
  | nil => simp
  | cons m rest ih =>
    obtain rfl : m.view = next := hviews m List.mem_cons_self
    obtain ⟨hnew, hnodup⟩ := List.nodup_cons.1 hnodup
    have hrest : ∀ x ∈ rest, x.view = m.view := fun x hx => hviews x (List.mem_cons_of_mem _ hx)
    have hfirst := hfresh m List.mem_cons_self
    rw [List.foldl_cons]
    by_cases hbacked : Backed ctx m
    · have hstill : ∀ x ∈ rest, (keeping m t).state.newViews.accepts x := by
        intro x hx
        have hkey : LogKey.of x ≠ LogKey.of m := fun heq => hnew (heq ▸ List.mem_map_of_mem hx)
        exact (MessageLog.accepts_insert hkey).trans (hfresh x (List.mem_cons_of_mem _ hx))
      have hkept : (keeping m t).state.newViews.entries = t.state.newViews.entries ++ [m] := by
        simp [keeping, MessageLog.insert, hfirst]
      rw [hear_ahead hbacked hnext hfollows,
        ih (t := keeping m t) hnext hfollows hrest hnodup hstill, hkept]
      simp [hbacked]
    · have hstill : ∀ x ∈ rest, t.state.newViews.accepts x :=
        fun x hx => hfresh x (List.mem_cons_of_mem _ hx)
      rw [hear_of_unbacked hbacked, ih hnext hfollows hrest hnodup hstill]
      simp [hbacked]

/-- A list of NewViews for the next view and the timer commute under the same condition. -/
theorem foldl_hear_expire (ms : List SignedBody) (hnext : t.state.view.next? = some next)
    (hfollows : ctx.leads t.state.view = false) (hleads : ctx.leads next)
    (hviews : ∀ m ∈ ms, m.view = next) (hnodup : (ms.map LogKey.of).Nodup)
    (hfresh : ∀ m ∈ ms, t.state.newViews.accepts m)
    (hfew : ((ms.foldl (hear ctx) t).state.newViews.forView next).length ≤
      quorumThreshold ctx.committee.size) :
    ms.foldl (hear ctx) (expire ctx next t) = expire ctx next (ms.foldl (hear ctx) t) := by
  -- From the front, taking each NewView past the timer.
  induction ms generalizing t with
  | nil => rfl
  | cons m rest ih =>
    obtain rfl : m.view = next := hviews m List.mem_cons_self
    obtain ⟨hnew, hnodup⟩ := List.nodup_cons.1 hnodup
    have hrest : ∀ x ∈ rest, x.view = m.view := fun x hx => hviews x (List.mem_cons_of_mem _ hx)
    obtain ⟨hview, hsteady⟩ := hear_ahead_steady hnext hfollows
    have hstill : ∀ x ∈ rest, (hear ctx t m).state.newViews.accepts x := by
      intro x hx
      rw [hsteady x fun heq => hnew (heq ▸ List.mem_map_of_mem hx)]
      exact hfresh x (List.mem_cons_of_mem _ hx)
    rw [← hview] at hnext hfollows
    rw [List.foldl_cons] at hfew ⊢
    have hfirst : ((hear ctx t m).state.newViews.forView m.view).length ≤
        quorumThreshold ctx.committee.size :=
      Nat.le_trans (foldl_hear_ahead rest hnext hfollows hrest).2 hfew
    rw [List.foldl_cons, hear_expire (hview ▸ hnext) (hview ▸ hfollows) hleads
      (hfresh m List.mem_cons_self) hfirst]
    exact ih hnext hfollows hrest hnodup hstill hfew

end Turns

/-- The core after some inputs, with all effects on the way. -/
def Machine.follow {v : Variant} (ctx : Context σ) :
    (c : Machine v σ) → (inputs : List Input) → Machine v σ × List Effect
  | c, [] => (c, [])
  | c, input :: rest =>
    let outcome := c.step ctx input
    let after := outcome.machine.follow ctx rest
    (after.1, outcome.effects ++ after.2)

/-- The signed messages of the envelopes that pass the checks without state. -/
def Context.opened (ctx : Context σ) (envelopes : List Envelope) : List SignedBody :=
  envelopes.filterMap fun e => (ctx.receive e).toOption

/-- NewViews for `next` with distinct keys, none of them logged. With those that are logged they
make at most a quorum. -/
structure Early {v : Variant} (ctx : Context σ) (c : Machine v σ) (next : View)
    (envelopes : List Envelope) : Prop where
  kind : ∀ e ∈ envelopes, e.kind = .newView
  view : ∀ m ∈ ctx.opened envelopes, m.view = next
  nodup : ((ctx.opened envelopes).map LogKey.of).Nodup
  fresh : ∀ m ∈ ctx.opened envelopes, c.state.newViews.accepts m
  few : ((c.follow ctx (envelopes.map .feed)).1.state.newViews.forView next).length ≤
    quorumThreshold ctx.committee.size

section Runs

variable {v : Variant} {c : Machine v σ} {t : Turn (Memory v) σ} {next : View}
  {envelopes : List Envelope}

def Turn.follow (ctx : Context σ) (t : Turn (Memory v) σ) (inputs : List Input) :
    Machine v σ × List Effect :=
  let after := (⟨t.state, t.memory, t.app⟩ : Machine v σ).follow ctx inputs
  (after.1, t.effects ++ after.2)

theorem Turn.follow_nil (t : Turn (Memory v) σ) :
    t.follow ctx [] = (⟨t.state, t.memory, t.app⟩, t.effects) := by
  simp [follow, Machine.follow]

theorem Turn.follow_of_run {h : Handler (Memory v) σ Unit} (hh : Oblivious h) {input : Input}
    (rest : List Input)
    (hstep : (⟨t.state, t.memory, t.app⟩ : Machine v σ).step ctx input =
      (⟨t.state, t.memory, t.app⟩ : Machine v σ).run h) :
    t.follow ctx (input :: rest) = (exec h t).2.follow ctx rest := by
  have hexec := hh.exec_preceded t.effects ⟨t.state, t.memory, t.app, []⟩
  have hself : Turn.preceded t.effects ⟨t.state, t.memory, t.app, []⟩ = t := by simp [preceded]
  rw [hself] at hexec
  rw [hexec, follow, Machine.follow, hstep]
  simp only [follow, preceded, List.append_assoc]
  rfl

theorem Turn.follow_timeout (rest : List Input) (hrunning : t.state.status = .running)
    (hnext : t.state.view.next? = some next) :
    t.follow ctx (.timeout :: rest) = (expire ctx next t).follow ctx rest := by
  apply follow_of_run (oblivious_advanceTo oblivious_openRound next) rest
  simp only [Machine.step, hrunning, if_true, Machine.nextRound, hnext]

theorem Turn.follow_feeds (ctx : Context σ) (rest : List Input)
    (hrunning : t.state.status = .running) (hkind : ∀ e ∈ envelopes, e.kind = .newView) :
    t.follow ctx (envelopes.map .feed ++ rest) =
      ((ctx.opened envelopes).foldl (hear ctx) t).follow ctx rest ∧
    ((ctx.opened envelopes).foldl (hear ctx) t).state.status = .running := by
  induction envelopes generalizing t with
  | nil => exact ⟨rfl, hrunning⟩
  | cons e envelopes ih =>
    have hlater : ∀ e ∈ envelopes, e.kind = .newView :=
      fun e he => hkind e (List.mem_cons_of_mem _ he)
    rw [List.map_cons, List.cons_append]
    cases hreceive : ctx.receive e with
    | error fault =>
      have hopened : ctx.opened (e :: envelopes) = ctx.opened envelopes := by
        simp [Context.opened, hreceive, Except.toOption]
      have hrefused : t.follow ctx (.feed e :: (envelopes.map .feed ++ rest)) =
          t.follow ctx (envelopes.map .feed ++ rest) := by
        simp [follow, Machine.follow, Machine.step, hreceive, Machine.refuse]
      rw [hopened, hrefused]
      exact ih hrunning hlater
    | ok m =>
      have hopened : ctx.opened (e :: envelopes) = m :: ctx.opened envelopes := by
        simp [Context.opened, hreceive, Except.toOption]
      have hread : t.follow ctx (.feed e :: (envelopes.map .feed ++ rest)) =
          (hear ctx t m).follow ctx (envelopes.map .feed ++ rest) := by
        apply follow_of_run (oblivious_onNewView m) _
        simp only [Machine.step, hreceive, hrunning, if_true, hkind e List.mem_cons_self,
          Machine.dispatch]
      rw [hopened, List.foldl_cons, hread]
      exact ih (((oblivious_onNewView m).status t).trans hrunning) hlater

/-- A core that leads `next` but not the view before it logs the backed NewViews for `next`, in
their order. Feeding them and then firing the timer leads to the same core and the same effects as
firing the timer first. -/
theorem feeds_timeout_comm (hrunning : c.state.status = .running)
    (hnext : c.state.view.next? = some next) (hfollows : ctx.leads c.state.view = false)
    (hleads : ctx.leads next) (h : Early ctx c next envelopes) :
    (c.follow ctx (envelopes.map .feed)).1.state.newViews.entries =
      c.state.newViews.entries ++ (ctx.opened envelopes).filter (Backed ctx ·) ∧
    c.follow ctx (envelopes.map .feed ++ [.timeout]) =
      c.follow ctx (.timeout :: envelopes.map .feed) := by
  obtain ⟨t, ht⟩ : ∃ t : Turn (Memory v) σ, t = ⟨c.state, c.memory, c.app, []⟩ := ⟨_, rfl⟩
  have hstate : t.state = c.state := by rw [ht]
  rw [← hstate] at hrunning hnext hfollows
  have hstart : ∀ inputs, c.follow ctx inputs = t.follow ctx inputs := by
    intro inputs
    simp [ht, Turn.follow]
  obtain ⟨hfeeds, -⟩ := Turn.follow_feeds ctx [] hrunning h.kind
  obtain ⟨hfeeds', hrunning'⟩ := Turn.follow_feeds ctx [.timeout] hrunning h.kind
  obtain ⟨hview, -⟩ := foldl_hear_ahead _ hnext hfollows h.view
  have hlog : c.follow ctx (envelopes.map .feed) =
      ((ctx.opened envelopes).foldl (hear ctx) t).follow ctx [] := by
    rw [hstart, ← hfeeds, List.append_nil]
  have hfew := h.few
  rw [hlog, Turn.follow_nil] at hfew
  have hexpired : (expire ctx next t).state.status = .running :=
    ((oblivious_advanceTo oblivious_openRound next).status t).trans hrunning
  refine ⟨?_, ?_⟩
  · rw [hlog, Turn.follow_nil, ← hstate]
    exact entries_foldl_hear _ hnext hfollows h.view h.nodup (hstate ▸ h.fresh)
  calc c.follow ctx (envelopes.map .feed ++ [.timeout])
      = ((ctx.opened envelopes).foldl (hear ctx) t).follow ctx [.timeout] := by
        rw [hstart, hfeeds']
    _ = (expire ctx next ((ctx.opened envelopes).foldl (hear ctx) t)).follow ctx [] :=
        Turn.follow_timeout [] hrunning' (hview ▸ hnext)
    _ = ((ctx.opened envelopes).foldl (hear ctx) (expire ctx next t)).follow ctx [] := by
        rw [foldl_hear_expire _ hnext hfollows hleads h.view h.nodup (hstate ▸ h.fresh) hfew]
    _ = (expire ctx next t).follow ctx (envelopes.map .feed ++ []) :=
        (Turn.follow_feeds ctx [] hexpired h.kind).1.symm
    _ = c.follow ctx (.timeout :: envelopes.map .feed) := by
        rw [List.append_nil, hstart, Turn.follow_timeout _ hrunning hnext]

section Samples

open Legible Cast

instance {c : Machine v σ} : Decidable (Early ctx c next envelopes) :=
  decidable_of_iff ((∀ e ∈ envelopes, e.kind = .newView) ∧
      (∀ m ∈ ctx.opened envelopes, m.view = next) ∧ ((ctx.opened envelopes).map LogKey.of).Nodup ∧
      (∀ m ∈ ctx.opened envelopes, c.state.newViews.accepts m) ∧
      ((c.follow ctx (envelopes.map .feed)).1.state.newViews.forView next).length ≤
        quorumThreshold ctx.committee.size)
    ⟨fun h => ⟨h.1, h.2.1, h.2.2.1, h.2.2.2.1, h.2.2.2.2⟩,
      fun h => ⟨h.kind, h.view, h.nodup, h.fresh, h.few⟩⟩

/-- The chained leader of view 3, which is still in view 2. -/
def lateLeader : Machine .chained Unit := (earlyRun 0).machine

def earlyReports : List Envelope :=
  [1, 2].map fun i => ((earlyRun i).letters.getLastD default).envelope

/-- The five-phase protocol after the decision of view 1. Members 0 and 2 have sent their NewViews
for view 2 to its leader, member 3, who is still in view 1. -/
def fivePhaseEarlyRun : World 4 .basic Unit :=
  (play four .basic () ([.begin 0, .begin 2, .begin 3, .timeout 0, .timeout 2, .timeout 3] ++
    decision 2 3 0 ++ [.timeout 0])).world

def fivePhaseLeader : Machine .basic Unit := (fivePhaseEarlyRun 3).machine

def fivePhaseReports : List Envelope :=
  [0, 2].map fun i => ((fivePhaseEarlyRun i).letters.getLastD default).envelope

/-- `reports` are early for `c`, all are logged, and once the timer fires `c` proposes in `next`. -/
def Waits (ctx : Context Unit) (c : Machine v Unit) (next : View) (reports : List Envelope) : Prop :=
  (c.state.status = .running ∧ c.state.view.next? = some next ∧ ctx.leads c.state.view = false ∧
    ctx.leads next ∧ Early ctx c next reports) ∧
  (c.follow ctx (reports.map .feed)).1.state.newViews.entries.length = reports.length ∧
  ((c.follow ctx (reports.map .feed ++ [.timeout])).2.filterMap Effect.proposal?).map Body.view =
    [next]

instance (ctx : Context Unit) (c : Machine v Unit) (reports : List Envelope) :
    Decidable (Waits ctx c next reports) := inferInstanceAs (Decidable (_ ∧ _))

theorem waits_lateLeader : Waits (four.context 0) lateLeader 3 earlyReports := by
  decide +kernel

theorem waits_fivePhaseLeader : Waits (four.context 3) fivePhaseLeader 2 fivePhaseReports := by
  decide +kernel

/-- A chained leader and a leader of the five-phase protocol propose on two NewViews, before or
after the timer fires. -/
theorem feeds_timeout_comm_of_lateLeader :
    (Waits (four.context 0) lateLeader 3 earlyReports ∧
      lateLeader.follow (four.context 0) (earlyReports.map .feed ++ [.timeout]) =
        lateLeader.follow (four.context 0) (.timeout :: earlyReports.map .feed)) ∧
    Waits (four.context 3) fivePhaseLeader 2 fivePhaseReports ∧
      fivePhaseLeader.follow (four.context 3) (fivePhaseReports.map .feed ++ [.timeout]) =
        fivePhaseLeader.follow (four.context 3) (.timeout :: fivePhaseReports.map .feed) := by
  obtain ⟨hrunning, hnext, hfollows, hleads, hearly⟩ := waits_lateLeader.1
  obtain ⟨hrunning', hnext', hfollows', hleads', hearly'⟩ := waits_fivePhaseLeader.1
  exact ⟨⟨waits_lateLeader, (feeds_timeout_comm hrunning hnext hfollows hleads hearly).2⟩,
    waits_fivePhaseLeader, (feeds_timeout_comm hrunning' hnext' hfollows' hleads' hearly').2⟩

end Samples

end Runs

end Concord.Core
