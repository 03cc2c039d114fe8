import Concord.Proofs.Group

/-!
Runs that are given by a script. Each cue delivers a message, fires a timer or runs a postponed
task, and a cue that is not possible is skipped, so every script leads to a reachable world without
traitors.
-/

namespace Concord.Core

variable {n : Nat} {v : Variant} {σ : Type}

inductive Cue (n : Nat)
  | begin (i : Fin n)
  | timeout (i : Fin n)
  /-- The member `receiver` gets a message of `sender`, which counts back from the sender's latest
  effect. -/
  | deliver (sender receiver : Fin n) (back : Nat)
  /-- A postponed task is due, counted in the same way. -/
  | due (i : Fin n) (back : Nat)

abbrev Cast (n : Nat) (v : Variant) (σ : Type) := Vector (Life (Memory v) σ) n

namespace Cast

def world (cores : Cast n v σ) : World n v σ := fun i => cores[i]

def request? (cores : Cast n v σ) (i : Fin n) (back : Nat) : Option Effect :=
  (cores[i].done.reverse.filter fun e => e.written?.isNone)[back]?

def letterTo? (g : Group n σ) (sender receiver : Fin n) : Effect → Option Letter
  | .send target letter => if target = g.member receiver then some letter else none
  | .broadcast letter => if sender ≠ receiver then some letter else none
  | _ => none

def input? (g : Group n σ) (cores : Cast n v σ) : Cue n → Option (Fin n × Input)
  | .begin i => some (i, .begin)
  | .timeout i => some (i, .timeout)
  | .deliver sender receiver back =>
    match (cores.request? sender back).bind (letterTo? g sender receiver) with
    | some letter => if letter.body.Fits then some (receiver, .feed letter.envelope) else none
    | none => none
  | .due i back =>
    match cores.request? i back with
    | some (.postpone view task) => some (i, .due view task)
    | _ => none

def follow (g : Group n σ) (cores : Cast n v σ) (cue : Cue n) : Cast n v σ :=
  match cores.input? g cue with
  | some (i, input) => cores.set i (cores[i].take (g.context i) input)
  | none => cores

/-- The cores after the given script. -/
def play (g : Group n σ) (v : Variant) (app : σ) (script : List (Cue n)) : Cast n v σ :=
  script.foldl (follow g) (Vector.replicate n (Life.initial g.scheme v app))

variable {g : Group n σ}

theorem world_set (cores : Cast n v σ) (i : Fin n) (l : Life (Memory v) σ) :
    world (cores.set i l) = Function.update cores.world i l := by
  funext j
  rcases eq_or_ne j i with rfl | hne
  · simp [world]
  · have hne' : (i : Nat) ≠ j := fun h => hne (Fin.ext h.symm)
    simp [world, Function.update_of_ne hne, hne']

theorem mem_done_of_request? {cores : Cast n v σ} {i : Fin n} {back : Nat} {e : Effect}
    (h : cores.request? i back = some e) : e ∈ (cores.world i).done := by
  have hmem := (List.mem_filter.1 (List.mem_of_getElem? h)).1
  simpa [world] using hmem

theorem letterTo?_eq_some {sender receiver : Fin n} {e : Effect} {letter : Letter}
    (h : letterTo? g sender receiver e = some letter) :
    e = .send (g.member receiver) letter ∨ e = .broadcast letter ∧ sender ≠ receiver := by
  cases e with
  | send target x =>
    simp only [letterTo?] at h
    split at h
    · next htarget =>
      cases h
      exact .inl (htarget ▸ rfl)
    · cases h
  | broadcast x =>
    simp only [letterTo?] at h
    split at h
    · next hne =>
      cases h
      exact .inr ⟨rfl, hne⟩
    · cases h
  | resetTimer | postpone | wrote | certified | deliver => cases h

theorem admits_of_input? {cores : Cast n v σ} {cue : Cue n} {i : Fin n} {input : Input}
    (h : cores.input? g cue = some (i, input)) : Admits g ∅ cores.world i input := by
  cases cue with
  | begin j =>
    cases h
    exact .begin
  | timeout j =>
    cases h
    exact .timeout
  | due j back =>
    simp only [input?] at h
    split at h
    · next hrequest =>
      cases h
      exact .due (mem_done_of_request? hrequest)
    · cases h
  | deliver sender receiver back =>
    simp only [input?] at h
    split at h
    · next letter hletter =>
      split at h
      · next hfits =>
        cases h
        obtain ⟨e, hrequest, hto⟩ := Option.bind_eq_some_iff.1 hletter
        have he := mem_done_of_request? hrequest
        refine .sent (j := sender) (by simp) ?_ hfits
        rcases letterTo?_eq_some hto with rfl | ⟨rfl, hne⟩
        · exact .inl he
        · exact .inr ⟨he, hne⟩
      · cases h
    · cases h

theorem reachable_follow {cores : Cast n v σ} (h : Reachable g ∅ cores.world) (cue : Cue n) :
    Reachable g ∅ (cores.follow g cue).world := by
  unfold follow
  split
  · next i input hinput =>
    rw [world_set]
    exact .take h (by simp) (admits_of_input? hinput)
  · exact h

/-- Every world that a script leads to is reachable without traitors. -/
theorem reachable_play (g : Group n σ) (v : Variant) (app : σ) (script : List (Cue n)) :
    Reachable g ∅ (play g v app script).world := by
  unfold play
  generalize hstart : Vector.replicate n (Life.initial g.scheme v app) = start
  have hinit : Reachable g ∅ (world start) := by
    subst hstart
    have hsame : world (Vector.replicate n (Life.initial g.scheme v app)) =
        fun _ => Life.initial g.scheme v app := by
      funext i
      simp [world]
    rw [hsame]
    exact .init fun _ => app
  clear hstart
  induction script generalizing start with
  | nil => exact hinit
  | cons cue rest ih => exact ih _ (reachable_follow hinit cue)

end Cast

end Concord.Core
