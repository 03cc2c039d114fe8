import Concord.Proofs.Basic.Forgery
import Concord.Proofs.Chained.Forgery
import Concord.Proofs.OneProposal

/-!
Agreement of loyal members on the decision of each view. It holds in all runs if there is no
traitor, and fails in some run if there is one: in a view that it leads, a traitor makes two members
decide differently on certificates with only its own vote.
-/

namespace Concord.Core

variable {n : Nat} {v : Variant} {σ : Type} {g : Group n σ} {traitors : Finset (Fin n)}

/-- Loyal members that decide in the same view decide on the same payload. -/
def Agreement (traitors : Finset (Fin n)) (w : World n v σ) : Prop :=
  ∀ i ∉ traitors, ∀ j ∉ traitors, ∀ view p p', .deliver view p ∈ (w i).done →
    .deliver view p' ∈ (w j).done → p = p'

theorem agreement_of_loyal {w : World n v σ} (h : Reachable g ∅ w) (hfree : CollisionFree g w) :
    Agreement ∅ w := by
  intro i _ j _ view p p' hp hp'
  obtain ⟨b, hb, rfl⟩ := proposal_of_delivered h hfree hp
  obtain ⟨b', hb', rfl⟩ := proposal_of_delivered h hfree hp'
  exact congrArg Body.payload (h.unique_proposal hb hb')

theorem exists_disagreement {node : Body → Prop} {view : View} {payloads : Payload → Prop}
    (hdeceive : ∀ {i payload app} {w : World n v σ}, i ∉ traitors → payloads payload →
      Reachable g traitors w → w i = Life.initial g.scheme v app →
      ∃ l, Reachable g traitors (Function.update w i l) ∧ Deceived node view payload l)
    {a b : Fin n} (ha : a ∉ traitors) (hb : b ∉ traitors) (hne : a ≠ b) {p p' : Payload}
    (hp : payloads p) (hp' : payloads p') (app : σ) :
    ∃ w : World n v σ, Reachable g traitors w ∧ .deliver view p ∈ (w a).done ∧
      .deliver view p' ∈ (w b).done ∧
      ∀ x, World.Rooted g w x → x = genesisNode g.scheme ∨ node x := by
  obtain ⟨start, hreachable, hinitial⟩ : ∃ start : World n v σ, Reachable g traitors start ∧
      ∀ i, start i = Life.initial g.scheme v app := ⟨_, .init fun _ => app, fun _ => rfl⟩
  have hstart : ∀ i, Silent node (start i) := fun i => by
    rw [hinitial i]
    exact ⟨by simp [Life.initial], by simp [Life.initial]⟩
  obtain ⟨l, hl, hdeceived⟩ := hdeceive ha hp hreachable (hinitial a)
  have hother : Function.update start a l b = Life.initial g.scheme v app :=
    (Function.update_of_ne hne.symm l start).trans (hinitial b)
  obtain ⟨l', hl', hdeceived'⟩ := hdeceive hb hp' hl hother
  have hsilent : ∀ i, Silent node (Function.update (Function.update start a l) b l' i) :=
    silent_update (silent_update hstart hdeceived.toSilent) hdeceived'.toSilent
  refine ⟨_, hl', ?_, ?_, fun x hx => node_of_silent hsilent hx⟩
  · rw [Function.update_of_ne hne, Function.update_self]
    exact hdeceived.delivered
  · rw [Function.update_self]
    exact hdeceived'.delivered

end Concord.Core

namespace Concord.Core.Legible

open Crypto Chained

variable {n : Nat} (hn : 4 ≤ n) (hsize : n < capacity) (t : Fin n)

def pen : Pen (group n hn hsize) t where
  stamp := stamp (key t)
  valid _ := decide_eq_true rfl

def turnOf (n t k : Nat) : View := UInt64.ofNat ((t + n - 1) % n + k * n)

include hn hsize in
theorem toNat_turnOf {k : Nat} (hk : k ≤ 4) :
    (turnOf n t k).toNat = (t + n - 1) % n + k * n ∧ (t + n - 1) % n + k * n + 1 < 2 ^ 64 := by
  have hrest : (t + n - 1) % n < n := Nat.mod_lt _ (by omega)
  have hrounds : k * n ≤ 4 * n := Nat.mul_le_mul_right n hk
  have hbound : (t + n - 1) % n + k * n + 1 < 2 ^ 64 := by
    unfold capacity at hsize
    omega
  exact ⟨UInt64.toNat_ofNat_of_lt' (Nat.lt_of_succ_lt hbound), hbound⟩

theorem seat_turnOf {k : Nat} (hk : k ≤ 4) : (group n hn hsize).seat (turnOf n t k) = t := by
  obtain ⟨hview, hbound⟩ := toNat_turnOf hn hsize t hk
  refine Fin.ext ?_
  change (turnOf n t k + 1).toNat % n = t
  rw [UInt64.toNat_add, UInt64.toNat_one, hview, Nat.mod_eq_of_lt hbound, Nat.add_right_comm,
    Nat.add_mul_mod_self_right, Nat.mod_add_mod, Nat.sub_add_cancel (by omega),
    Nat.add_mod_right, Nat.mod_eq_of_lt t.isLt]

def reign : Reign (group n hn hsize) t where
  view := turnOf n t
  seat _ hk := seat_turnOf hn hsize t (Nat.le_of_lt hk)
  increasing k hk := by
    rw [UInt64.lt_iff_toNat_lt, (toNat_turnOf hn hsize t (Nat.le_of_lt hk)).1,
      (toNat_turnOf hn hsize t hk).1, Nat.succ_mul]
    omega

def bearing (tag : UInt8) : Payload := ⟨Digest.zero, [tag]⟩

theorem willing (i : Fin n) (data : Bytes) : Willing (group n hn hsize) i data where
  accepts _ := rfl
  signs _ _ := ⟨_, rfl⟩

inductive Planted : Body → Prop
  | root : Planted (genesisNode scheme)
  | tower {tag : UInt8} {k : Nat} : tag ≠ 0 → k < 4 →
      Planted (tower (pen hn hsize t) (reign hn hsize t) (bearing tag) (k + 1))

variable {hn hsize t}

theorem marked_of_planted {b : Body} (h : Planted hn hsize t b) :
    Marked b ∧ b.computeId scheme = b.id := by
  cases h with
  | root => exact ⟨⟨nofun, fun _ => rfl⟩, rfl⟩
  | @tower tag k htag => exact ⟨⟨fun hzero => htag (Option.some.inj hzero), nofun⟩, rfl⟩

theorem turnOf_inj {j k : Nat} (hn : 4 ≤ n) (hsize : n < Legible.capacity) (hj : j ≤ 4) (hk : k ≤ 4)
    (h : turnOf n t j = turnOf n t k) : j = k := by
  have hview := congrArg UInt64.toNat h
  rw [(toNat_turnOf hn hsize t hj).1, (toNat_turnOf hn hsize t hk).1] at hview
  exact Nat.eq_of_mul_eq_mul_right (by omega : 0 < n) (Nat.add_left_cancel hview)

theorem branchOf_tower (tag : UInt8) (k : Nat) :
    branchOf (tower (pen hn hsize t) (reign hn hsize t) (bearing tag) (k + 1)) =
      Bytes.littleEndian 8 (turnOf n t k).toNat ++ [tag] := rfl

theorem branchOf_genesis_ne {tag : UInt8} (htag : tag ≠ 0) (view : Bytes) :
    branchOf (genesisNode scheme) ≠ view ++ [tag] := by
  intro hbranch
  have hlast : (branchOf (genesisNode scheme)).getLast? = some 0 := by decide
  rw [hbranch, List.getLast?_concat] at hlast
  exact htag (Option.some.inj hlast)

theorem eq_of_planted {b b' : Body} (h : Planted hn hsize t b) (h' : Planted hn hsize t b')
    (hbranch : branchOf b = branchOf b') : b = b' := by
  cases h with
  | root =>
    cases h' with
    | root => rfl
    | tower htag => exact absurd hbranch (branchOf_genesis_ne htag _)
  | @tower tag k htag hk =>
    cases h' with
    | root => exact absurd hbranch.symm (branchOf_genesis_ne htag _)
    | @tower tag' k' htag' hk' =>
      rw [branchOf_tower, branchOf_tower] at hbranch
      obtain ⟨hview, htags⟩ := List.append_inj' hbranch rfl
      obtain rfl := turnOf_inj hn hsize (by omega) (by omega) (view_inj hview)
      obtain rfl := (List.cons.inj htags).1
      rfl

theorem upright {tag : UInt8} (htag : tag ≠ 0) :
    Upright (pen hn hsize t) (reign hn hsize t) (bearing tag) := by
  have hgrown : ∀ k ≤ 4, Grown scheme (Planted hn hsize t)
      (tower (pen hn hsize t) (reign hn hsize t) (bearing tag) k) := by
    intro k hk
    cases k with
    | zero => exact .root .root
    | succ k => exact .root (.tower htag (by omega))
  have hroot : ∀ b, Planted hn hsize t b → Marked b ∧ b.computeId scheme = b.id :=
    fun _ => marked_of_planted
  refine ⟨fun j hj k hk hid => ?_, fun k hk => nonzero_of_grown hroot (hgrown k hk)⟩
  have hsame := distinct_of_grown (fun _ => marked_of_planted) (fun _ _ => eq_of_planted)
    (hgrown j hj) (hgrown k hk) hid
  have hdata := congrArg (fun b => b.payload.data) hsame
  cases j with
  | zero =>
    cases k with
    | zero => rfl
    | succ k => cases hdata
  | succ j =>
    cases k with
    | zero => cases hdata
    | succ k =>
      have hview : turnOf n t j = turnOf n t k := congrArg Body.view hsame
      rw [turnOf_inj hn hsize (by omega) (by omega) hview]

theorem fits_bearing (tag : UInt8) : (bearing tag).Fits := by
  change 1 < Wire.Codec.countable
  decide

variable (hn hsize) {traitors : Finset (Fin n)}

/-- A traitor makes two loyal members decide differently in the first view that it leads. -/
theorem exists_two_decisions (v : Variant) (ht : t ∈ traitors) {a b : Fin n} (ha : a ∉ traitors)
    (hb : b ∉ traitors) (hne : a ≠ b) :
    ∃ w : World n v Unit, Reachable (group n hn hsize) traitors w ∧
      .deliver (turnOf n t 0) (bearing 1) ∈ (w a).done ∧
      .deliver (turnOf n t 0) (bearing 2) ∈ (w b).done ∧
      ∀ x, World.Rooted (group n hn hsize) w x → Planted hn hsize t x := by
  have hone : ∃ tag ≠ 0, bearing 1 = bearing tag := ⟨1, by decide, rfl⟩
  have htwo : ∃ tag ≠ 0, bearing 2 = bearing tag := ⟨2, by decide, rfl⟩
  -- The tag tells the nodes planted on one member from those planted on the other.
  have hdeceive : ∀ {i payload app} {w : World n v Unit}, i ∉ traitors →
      (∃ tag ≠ 0, payload = bearing tag) → Reachable (group n hn hsize) traitors w →
      w i = Life.initial scheme v app →
      ∃ l, Reachable (group n hn hsize) traitors (Function.update w i l) ∧
        Deceived (Planted hn hsize t) (turnOf n t 0) payload l := by
    rintro i _ app w hi ⟨tag, htag, rfl⟩ h hinit
    cases v with
    | basic =>
      exact Basic.exists_deceived (seat_turnOf hn hsize t (by omega)) (fits_bearing tag)
        (pen hn hsize t) h hi ht hinit (fun _ => rfl) _
    | chained =>
      obtain ⟨l, hl, hdeceived⟩ := Chained.exists_deceived h hi ht hinit (fits_bearing tag)
        (upright htag) (willing hn hsize i [tag])
      refine ⟨l, hl, ⟨hdeceived.quiet, fun x hx hkind => ?_⟩, hdeceived.delivered⟩
      obtain ⟨j, hj, hnode⟩ := hdeceived.heard x hx hkind
      exact hnode ▸ .tower htag hj
  obtain ⟨w, hw, hp, hp', hnodes⟩ := exists_disagreement hdeceive ha hb hne hone htwo ()
  refine ⟨w, hw, hp, hp', fun x hx => ?_⟩
  rcases hnodes x hx with rfl | hplanted
  · exact .root
  · exact hplanted

end Concord.Core.Legible

namespace Concord.Core

/-- For at most `(n - 1) / 3` traitors, agreement holds in every collision-free run if and only if
there is no traitor. The bound `Legible.capacity` exceeds the addresses of a 64-bit machine. -/
theorem agreement_iff_loyal (v : Variant) {n : Nat} (hn : 4 ≤ n) (hsize : n < Legible.capacity)
    (traitors : Finset (Fin n)) (hfew : traitors.card ≤ (n - 1) / 3) :
    (∀ (σ : Type) (g : Group n σ) (w : World n v σ), Reachable g traitors w → CollisionFree g w →
      Agreement traitors w) ↔ traitors = ∅ := by
  constructor
  · intro hagree
    rcases traitors.eq_empty_or_nonempty with hnone | ⟨t, ht⟩
    · exact hnone
    · have hloyal : 1 < traitorsᶜ.card := by
        rw [Finset.card_compl, Fintype.card_fin]
        omega
      obtain ⟨a, ha, b, hb, hne⟩ := Finset.one_lt_card.1 hloyal
      rw [Finset.mem_compl] at ha hb
      obtain ⟨w, hw, hp, hp', hplanted⟩ :=
        Legible.exists_two_decisions hn hsize v ht ha hb hne
      have hfree : CollisionFree (Legible.group n hn hsize) w :=
        Legible.collisionFree rfl (fun _ hb => Legible.marked_of_planted (hplanted _ hb))
          fun _ _ hb hb' => Legible.eq_of_planted (hplanted _ hb) (hplanted _ hb')
      have hsame := hagree Unit _ w hw hfree a ha b hb _ _ _ hp hp'
      exact absurd hsame (by decide)
  · rintro rfl σ g w hw hfree
    exact agreement_of_loyal hw hfree

/-- With one traitor among four members, agreement fails in some run. -/
theorem disagreement_of_one_in_four :
    ¬ ∀ (σ : Type) (g : Group 4 σ) (w : World 4 .basic σ), Reachable g {1} w → CollisionFree g w →
      Agreement {1} w :=
  mt (agreement_iff_loyal .basic (by decide) (by decide) {1} (by decide)).1 (by decide)

end Concord.Core
