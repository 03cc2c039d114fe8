import Concord.Proofs.Basic.History
import Concord.Proofs.Chained.Order
import Concord.Proofs.Legible

/-!
The two logs of a core. A message is logged only if it is of the core's view or within the window,
and messages of earlier views are dropped when a view is entered. Hence the number of entries is
bounded.
-/

namespace Concord

namespace View

theorem toNat_plus (v : View) (n : Nat) : (v.plus n).toNat = min (v.toNat + n) last.toNat := by
  have hsize : UInt64.size = last.toNat + 1 := rfl
  unfold plus
  split
  · next hlt =>
    rw [UInt64.toNat_ofNat', Nat.mod_eq_of_lt hlt]
    omega
  · omega

theorem le_plus (v : View) (n : Nat) : v ≤ v.plus n := by
  have hsize : UInt64.size = last.toNat + 1 := rfl
  have hlt := v.toNat_lt_size
  rw [UInt64.le_iff_toNat_le, toNat_plus]
  omega

theorem plus_mono {v w : View} (h : v ≤ w) (n : Nat) : v.plus n ≤ w.plus n := by
  rw [UInt64.le_iff_toNat_le] at h ⊢
  rw [toNat_plus, toNat_plus]
  omega

theorem exists_plus {v w : View} {n : Nat} (hle : v ≤ w) (hlast : w ≤ v.plus n) :
    ∃ i ≤ n, w = v.plus i := by
  have hsize : UInt64.size = last.toNat + 1 := rfl
  have hlt := w.toNat_lt_size
  rw [UInt64.le_iff_toNat_le] at hle hlast
  rw [toNat_plus] at hlast
  refine ⟨w.toNat - v.toNat, by omega, UInt64.toNat_inj.1 ?_⟩
  rw [toNat_plus]
  omega

end View

namespace Core

namespace MessageLog

variable {log : MessageLog} {view view' : View}

/-- All messages are of `view` or of one of the next `viewWindow` views. -/
def Near (view : View) (log : MessageLog) : Prop :=
  ∀ m ∈ log.entries, view ≤ m.view ∧ m.view ≤ view.plus viewWindow

theorem near_empty : empty.Near view := nofun

theorem Near.insert (h : log.Near view) {m : SignedBody} (hview : view ≤ m.view)
    (hwindow : m.view ≤ view.plus viewWindow) : (log.insert m).Near view := fun x hx => by
  rcases mem_insert hx with hx | rfl
  · exact h x hx
  · exact ⟨hview, hwindow⟩

theorem Near.removeView (h : log.Near view) : (log.removeView view').Near view :=
  fun x hx => h x (mem_removeView hx)

/-- A log near `view` that drops the views before `view'` is near `view'`. -/
theorem Near.retainFrom (h : log.Near view) (hle : view ≤ view') :
    (log.retainFrom view').Near view' := fun x hx => by
  have hview : view' ≤ x.view := of_decide_eq_true (List.mem_filter.1 hx).2
  exact ⟨hview, UInt64.le_trans (h x (mem_retainFrom hx)).2 (View.plus_mono hle _)⟩

end MessageLog

structure State.Near (s : State) : Prop where
  newViews : s.newViews.Near s.view
  votes : s.votes.Near s.view

namespace State

theorem near_initial : initial.Near := ⟨MessageLog.near_empty, MessageLog.near_empty⟩

theorem Near.entered {s s' : State} (h : s.Near) (hle : s.view ≤ s'.view)
    (hnewViews : s'.newViews = s.newViews) (hvotes : s'.votes = s.votes) : s'.resetRound.Near :=
  ⟨(hnewViews ▸ h.newViews : s'.newViews.Near s.view).retainFrom hle,
    (hvotes ▸ h.votes : s'.votes.Near s.view).retainFrom hle⟩

theorem Near.jump {s : State} (h : s.Near) (view : View) : (s.jump view).Near := by
  unfold State.jump
  split
  · next hlt => exact h.entered (UInt64.le_of_lt hlt) rfl rfl
  · exact h

end State

namespace Basic

variable {σ : Type} {ctx : Context σ} {l l' : Life Unit σ}

theorem Move.near (h : Move ctx l l') (hnear : l.state.Near) : l'.state.Near := by
  have ⟨hnewViews, hvotes⟩ := hnear
  cases h with
  | begin => exact hnear.entered (UInt64.le_refl _) rfl rfl
  | enter hnext => exact hnear.entered (UInt64.le_of_lt (View.lt_next hnext)) rfl rfl
  | @accept m =>
    obtain ⟨hnewViews, hvotes⟩ := hnear.jump m.view
    exact ⟨hnewViews, hvotes⟩
  | keep _ hview hwindow => exact ⟨hnewViews.insert hview (of_decide_eq_true hwindow), hvotes⟩
  | squander | propose => exact ⟨hnewViews.removeView, hvotes⟩
  | log _ _ hview =>
    refine ⟨hnewViews, hvotes.insert (hview ▸ UInt64.le_refl _) ?_⟩
    exact hview ▸ View.le_plus _ _
  | followCommit => exact ⟨by simpa using hnewViews, by simpa using hvotes⟩
  | certifyPreCommit => exact ⟨by simpa using hnewViews, by simpa using hvotes.removeView⟩
  | certifyPrepare | certifyCommit | certifyUnsigned | certifyIdle =>
    exact ⟨hnewViews, hvotes.removeView⟩
  | _ => exact ⟨hnewViews, hvotes⟩

theorem Reached.near (h : Reached ctx l) : l.state.Near := by
  induction h with
  | born app => exact State.near_initial
  | move _ hmove ih => exact hmove.near ih

end Basic

namespace Chained

variable {σ : Type} {ctx : Context σ} {l l' : Life Chain σ} {known : State × Chain → Prop}

theorem Steady.near {s s' : State} (h : Steady s s') (hnear : s.Near) : s'.Near where
  newViews := by rw [h.newViews, h.view]; exact hnear.newViews
  votes := by rw [h.votes, h.view]; exact hnear.votes

theorem Move.near (h : Move ctx l l') (hnear : l.state.Near) : l'.state.Near := by
  have ⟨hnewViews, hvotes⟩ := hnear
  cases h with
  | begin => exact hnear.entered (UInt64.le_refl _) rfl rfl
  | enter hnext => exact hnear.entered (UInt64.le_of_lt (View.lt_next hnext)) rfl rfl
  | keep _ hview hwindow => exact ⟨hnewViews.insert hview (of_decide_eq_true hwindow), hvotes⟩
  | log _ _ hview hwindow => exact ⟨hnewViews, hvotes.insert hview (of_decide_eq_true hwindow)⟩
  | gather hgather =>
    cases hgather
    exact ⟨hnewViews.removeView, hvotes⟩
  | certify hcertify =>
    cases hcertify with
    | mk hview hnext =>
      have hle := UInt64.le_trans hview (UInt64.le_of_lt (View.lt_next hnext))
      exact hnear.entered hle rfl rfl
  | _ => exact ⟨hnewViews, hvotes⟩

theorem Step.near (h : Step ctx known l l') (hnear : l.state.Near) : l'.state.Near := by
  cases h with
  | move hmove => exact hmove.near hnear
  | @accept m =>
    obtain ⟨hnewViews, hvotes⟩ := hnear.jump m.view
    exact ⟨hnewViews, hvotes⟩
  | announce _ _ _ _ _ _ hmid => exact hmid ▸ ⟨hnear.newViews, hnear.votes⟩
  | adopt _ _ _ hadopted => exact hadopted.steady.near hnear

theorem Reached.near (h : Reached ctx known l) : l.state.Near := by
  induction h with
  | born app => exact State.near_initial
  | step _ hstep ih => exact hstep.near ih

end Chained

section

variable {v : Variant} {σ : Type} {ctx : Context σ} {l : Life (Memory v) σ}

/-- Every message in `heard` is genuine. -/
theorem Lived.genuine (h : Lived ctx l) : ∀ x ∈ l.heard, ctx.Genuine x := by
  induction h with
  | born app => simp [Life.initial]
  | retouch app _ ih => exact ih
  | @take l input _ _ ih =>
    change ∀ x ∈ (l.told ctx input).heard, ctx.Genuine x
    rcases l.told_cases ctx input with htold | ⟨letter, hgenuine, htold⟩
    · rwa [htold]
    · rw [htold]
      exact List.forall_mem_append.2 ⟨ih, List.forall_mem_singleton.2 hgenuine⟩

/-- Both logs of a core are near its view and hold messages that were heard. -/
theorem Lived.logs (h : Lived ctx l) : ∀ log ∈ [l.state.newViews, l.state.votes],
    log.Near l.state.view ∧ ∃ kind, log.Holds kind l.heard := by
  suffices hboth : l.state.Near ∧ l.state.newViews.Holds .newView l.heard ∧
      l.state.votes.Holds .vote l.heard by
    obtain ⟨hnear, hnewViews, hvotes⟩ := hboth
    simp only [List.mem_cons, List.not_mem_nil, or_false]
    rintro log (rfl | rfl)
    · exact ⟨hnear.newViews, _, hnewViews⟩
    · exact ⟨hnear.votes, _, hvotes⟩
  cases v with
  | basic =>
    have hreached := (Basic.reached_of_lived h).2
    exact ⟨hreached.near, hreached.logged.newViews, hreached.logged.votes⟩
  | chained =>
    have hreached := Chained.reached_anyhow h
    exact ⟨hreached.near, hreached.logged.newViews, hreached.logged.votes⟩

end

def LogKey.around (committee : Committee) (view : View) : List LogKey :=
  committee.members.flatMap fun member => (List.range (viewWindow + 1)).flatMap fun ahead =>
    Phase.all.map fun phase => ⟨member.key, view.plus ahead, phase⟩

theorem LogKey.length_around (committee : Committee) (view : View) :
    (around committee view).length = 6 * (viewWindow + 1) * committee.size := by
  simp [around, List.length_flatMap, Phase.all, Committee.size, Nat.mul_comm]

theorem Phase.mem_all (phase : Phase) : phase ∈ Phase.all := by
  cases phase <;> decide

theorem LogKey.mem_around {committee : Committee} {view : View} {m : SignedBody}
    (hmember : committee.contains m.signer) (hview : view ≤ m.view)
    (hwindow : m.view ≤ view.plus viewWindow) : LogKey.of m ∈ around committee view := by
  obtain ⟨member, hmem, hkey⟩ := List.any_eq_true.1 hmember
  obtain ⟨ahead, hahead, hplus⟩ := View.exists_plus hview hwindow
  refine List.mem_flatMap.2 ⟨member, hmem, List.mem_flatMap.2 ⟨ahead, ?_, ?_⟩⟩
  · exact List.mem_range.2 (Nat.lt_succ_of_le hahead)
  · refine List.mem_map.2 ⟨m.phase, Phase.mem_all _, ?_⟩
    rw [LogKey.of, of_decide_eq_true hkey, hplus]

/-- The entries of both logs of a core are of its view or of one of the next `viewWindow` views, are
signed by members with valid signatures, and have distinct keys. Each log has at most 6 entries for
each member and view of the window. -/
theorem logs_bounded {v : Variant} {σ : Type} {ctx : Context σ} {l : Life (Memory v) σ}
    (h : Lived ctx l) : ∀ log ∈ [l.state.newViews, l.state.votes],
      (∀ m ∈ log.entries, l.state.view ≤ m.view ∧ m.view ≤ l.state.view.plus viewWindow ∧
        ctx.committee.contains m.signer ∧ m.verify ctx.scheme m.signer) ∧
      (log.entries.map LogKey.of).Nodup ∧
      log.entries.length ≤ 6 * (viewWindow + 1) * ctx.committee.size := by
  intro log hlog
  obtain ⟨hnear, kind, hholds⟩ := h.logs log hlog
  have hgenuine : ∀ m ∈ log.entries, ctx.Genuine ⟨kind, m⟩ := fun m hm =>
    h.genuine _ (hholds.heard m hm)
  refine ⟨fun m hm => ?_, hholds.indexed.nodup, ?_⟩
  · exact ⟨(hnear m hm).1, (hnear m hm).2, (hgenuine m hm).member, (hgenuine m hm).signed⟩
  · rw [← LogKey.length_around ctx.committee l.state.view, ← List.length_map LogKey.of]
    refine List.Nodup.length_le_of_subset hholds.indexed.nodup fun key hkey => ?_
    obtain ⟨m, hm, rfl⟩ := List.mem_map.1 hkey
    exact LogKey.mem_around (hgenuine m hm).member (hnear m hm).1 (hnear m hm).2

section Samples

open Legible Cast

theorem laggingRun_spec :
    (laggingRun 2).state.newViews.entries.map LogKey.of = [⟨key 1, 1, .newView⟩] ∧
    (laggingRun 2).state.votes.entries.map LogKey.of = [⟨key 0, 0, .generic⟩] := by
  decide +kernel

/-- A core with messages in both logs. -/
theorem logs_of_laggingRun : (laggingRun 2).state.newViews.entries ≠ [] ∧
    (laggingRun 2).state.votes.entries ≠ [] ∧
    ∀ log ∈ [(laggingRun 2).state.newViews, (laggingRun 2).state.votes],
      (∀ m ∈ log.entries, (laggingRun 2).state.view ≤ m.view ∧
        m.view ≤ (laggingRun 2).state.view.plus viewWindow ∧
        (four.context 2).committee.contains m.signer ∧ m.verify scheme m.signer) ∧
      (log.entries.map LogKey.of).Nodup ∧
      log.entries.length ≤ 6 * (viewWindow + 1) * 4 := by
  obtain ⟨hnewViews, hvotes⟩ := laggingRun_spec
  refine ⟨fun hnil => ?_, fun hnil => ?_, ?_⟩
  · simp [hnil] at hnewViews
  · simp [hnil] at hvotes
  · exact logs_bounded ((Cast.reachable_play ..).lived 2)

end Samples

end Core

end Concord
