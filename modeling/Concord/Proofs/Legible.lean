import Concord.Proofs.Script

/-!
A scheme with readable digests: the identity of a node has its view and its branch, and a signature
is the key with the signed digest. Whether a run is free of collisions can then be decided from the
proposed nodes. The scheme satisfies all assumptions on groups and is used for concrete runs.
-/

namespace Concord.Core.Legible

open Crypto Wire

def mark (b : Bytes) : UInt8 := (b.drop 52).headD 0

/-- The branch in an encoded node. A node with data starts a branch, and a node without data is on
that of its parent. -/
def branch (b : Bytes) : Bytes :=
  if mark b = 0 then (b.drop (b.length - 23)).take 9 else b.take 8 ++ [mark b]

def identity (view branch : Bytes) : Digest := ⟨.ofBytesPadded 32 (1 :: (view ++ branch))⟩

def key (i : Nat) : PublicKey := ⟨⟨Bytes.littleEndian 32 i, Bytes.length_littleEndian 32 i⟩⟩

def stamp (key : PublicKey) (digest : Digest) : Signature :=
  ⟨⟨key.raw.bytes ++ digest.raw.bytes, by
    rw [List.length_append, key.raw.length_bytes, digest.raw.length_bytes]⟩⟩

def scheme : Scheme where
  hash b := identity (b.take 8) (branch b)
  verify key digest signature := signature = stamp key digest
  isKey _ := true

def signer (i : Nat) : Signer := ⟨key i, some (stamp (key i))⟩

def application : Application Unit where
  produce _ := (.ok [1], ())
  accepts _ _ := true
  deliver _ _ _ := ()

theorem littleEndian_inj {size a b : Nat} (ha : a < Nat.pow 256 size) (hb : b < Nat.pow 256 size)
    (h : Bytes.littleEndian size a = Bytes.littleEndian size b) : a = b := by
  have hvalue := congrArg Bytes.ofLittleEndian h
  rwa [Bytes.ofLittleEndian_littleEndian, Bytes.ofLittleEndian_littleEndian, Nat.mod_eq_of_lt ha,
    Nat.mod_eq_of_lt hb] at hvalue

theorem view_inj {view view' : View}
    (h : Bytes.littleEndian 8 view.toNat = Bytes.littleEndian 8 view'.toNat) : view = view' := by
  have hsize : Nat.pow 256 8 = UInt64.size := by decide
  exact UInt64.toNat_inj.1 (littleEndian_inj (hsize ▸ view.toNat_lt) (hsize ▸ view'.toNat_lt) h)

/-- A bound on the number of members, beyond the number of addresses of a 64-bit machine. -/
def capacity : Nat := 0x400000000000000

theorem key_injective {i j : Nat} (hi : i < capacity) (hj : j < capacity) (h : key i = key j) :
    i = j := by
  have hsize : capacity ≤ Nat.pow 256 32 := by decide
  have hbytes : Bytes.littleEndian 32 i = Bytes.littleEndian 32 j :=
    congrArg (fun k : PublicKey => k.raw.bytes) h
  exact littleEndian_inj (hi.trans_le hsize) (hj.trans_le hsize) hbytes

def group (n : Nat) (hn : 4 ≤ n) (hsize : n < capacity) : Group n Unit where
  scheme := scheme
  member i := ⟨key i, ""⟩
  key_injective i j h :=
    Fin.ext (key_injective (i.isLt.trans hsize) (j.isLt.trans hsize) h)
  signer i := signer i
  signer_key _ := rfl
  application _ := application
  four_le := hn

section Encoding

theorem length_bytes (d : Digest) : d.bytes.length = 32 := d.raw.length_bytes

theorem encode_body (b : Body) : Body.codec.encode b =
    (Bytes.littleEndian 8 b.view.toNat ++ (Bytes.littleEndian 4 b.phase.index ++
      (b.payload.parent.bytes ++ Bytes.littleEndian 8 b.payload.data.length))) ++
      (b.payload.data ++ (Certificate.codec.encode b.justify ++ (b.id.bytes ++ b.parentId.bytes))) := by
  simp [Body.codec, Codec.map, Codec.pair, Codec.u64, Codec.number, Phase.codec, Codec.choice,
    Payload.codec, Digest.codec, Codec.fixed, Codec.bytes, Codec.count, Digest.bytes]

theorem take_encode (b : Body) :
    (Body.codec.encode b).take 8 = Bytes.littleEndian 8 b.view.toNat := by
  rw [encode_body, List.append_assoc]
  exact List.take_left' (Bytes.length_littleEndian _ _)

theorem drop_encode (b : Body) : (Body.codec.encode b).drop 52 =
    b.payload.data ++ (Certificate.codec.encode b.justify ++ (b.id.bytes ++ b.parentId.bytes)) := by
  rw [encode_body]
  exact List.drop_left' (by simp [length_bytes])

theorem parent_encode (b : Body) :
    (Body.codec.encode b).drop ((Body.codec.encode b).length - 23) = b.parentId.bytes.drop 9 := by
  obtain ⟨front, hfront⟩ : ∃ front, Body.codec.encode b = front ++ b.parentId.bytes :=
    ⟨_, by rw [encode_body]; simp only [← List.append_assoc]; rfl⟩
  have hplace : front.length + 32 - 23 - front.length = 9 := by omega
  rw [hfront, List.length_append, length_bytes, List.drop_append,
    List.drop_eq_nil_of_le (by omega), hplace, List.nil_append]

/-- The node has data that does not begin with 0, or has no data and a genesis certificate. -/
def Marked (b : Body) : Prop :=
  b.payload.data.head? ≠ some 0 ∧ (b.payload.data = [] → b.justify = Certificate.genesis)

instance (b : Body) : Decidable (Marked b) := inferInstanceAs (Decidable (_ ∧ _))

def branchOf (b : Body) : Bytes :=
  match b.payload.data with
  | [] => (b.parentId.bytes.drop 9).take 9
  | tag :: _ => Bytes.littleEndian 8 b.view.toNat ++ [tag]

theorem length_branchOf (b : Body) : (branchOf b).length = 9 := by
  unfold branchOf
  split
  · simp [length_bytes]
  · simp

theorem branch_encode {b : Body} (h : Marked b) : branch (Body.codec.encode b) = branchOf b := by
  unfold branch branchOf mark
  rw [drop_encode, take_encode, parent_encode]
  cases hdata : b.payload.data with
  | nil =>
    rw [h.2 hdata]
    rfl
  | cons tag rest =>
    have htag : tag ≠ 0 := fun hzero => h.1 (by rw [hdata, hzero]; rfl)
    exact if_neg htag

theorem computeId_of_marked {b : Body} (h : Marked b) :
    b.computeId scheme = identity (Bytes.littleEndian 8 b.view.toNat) (branchOf b) := by
  have hunnamed : Marked { b with id := Digest.zero } := h
  have hbranch := branch_encode hunnamed
  have hview := take_encode { b with id := Digest.zero }
  unfold Body.computeId scheme
  dsimp only
  rw [hbranch, hview]
  rfl

end Encoding

section Identities

theorem bytes_identity {view branch : Bytes} (hview : view.length = 8)
    (hbranch : branch.length = 9) :
    (identity view branch).bytes = 1 :: (view ++ (branch ++ List.replicate 14 0)) := by
  simp only [identity, Digest.bytes, FixedBytes.ofBytesPadded, List.cons_append,
    List.take_succ_cons]
  simp [List.take_append, hview, hbranch, List.take_of_length_le]

def above (b : Body) : (count : Nat) → Body
  | 0 => b
  | count + 1 => dummyNode scheme ((above b count).view + 1) (above b count).id

variable {root : Body → Prop} (hroot : ∀ r, root r → Marked r ∧ r.computeId scheme = r.id)

include hroot

theorem above_of_grown {b : Body} (h : Grown scheme root b) : ∃ r, root r ∧
    b.id = identity (Bytes.littleEndian 8 b.view.toNat) (branchOf r) ∧
    ∃ count, b = above r count ∧ b.view.toNat = r.view.toNat + count := by
  induction h with
  | @root r hr =>
    obtain ⟨hmarked, hid⟩ := hroot r hr
    exact ⟨r, hr, hid ▸ computeId_of_marked hmarked, 0, rfl, rfl⟩
  | @dummy b view _ hnext ih =>
    obtain ⟨r, hr, hid, count, habove, hview⟩ := ih
    have hsucc : view = b.view + 1 := by
      unfold View.next? at hnext
      split at hnext
      · cases hnext
      · exact (Option.some.inj hnext).symm
    refine ⟨r, hr, ?_, count + 1, ?_, ?_⟩
    · have hmarked : Marked (dummyNode scheme view b.id) := ⟨nofun, fun _ => rfl⟩
      have hcompute := computeId_of_marked hmarked
      have hbranch : branchOf (dummyNode scheme view b.id) = branchOf r := by
        change (b.id.bytes.drop 9).take 9 = branchOf r
        rw [hid, bytes_identity (by simp) (length_branchOf r)]
        simp [length_branchOf]
      rw [hbranch] at hcompute
      exact hcompute
    · rw [above, ← habove, hsucc]
    · rw [dummyNode_view, View.toNat_next hnext, hview, Nat.add_assoc]

theorem nonzero_of_grown {a : Body} (ha : Grown scheme root a) : a.id ≠ Digest.zero := by
  obtain ⟨r, -, hid, -⟩ := above_of_grown hroot ha
  intro hzero
  have hbytes := congrArg Digest.bytes (hid.symm.trans hzero)
  rw [bytes_identity (by simp) (length_branchOf r)] at hbytes
  have hhead := congrArg (List.head? ·) hbytes
  simp [Digest.bytes, Digest.zero, FixedBytes.zero, FixedBytes.replicate] at hhead

variable (hbranch : ∀ r r', root r → root r' → branchOf r = branchOf r' → r = r')

include hbranch

theorem distinct_of_grown {a b : Body} (ha : Grown scheme root a) (hb : Grown scheme root b)
    (h : a.id = b.id) : a = b := by
  obtain ⟨r, hr, haid, count, habove, haview⟩ := above_of_grown hroot ha
  obtain ⟨r', hr', hbid, count', habove', hbview⟩ := above_of_grown hroot hb
  have hbytes := congrArg Digest.bytes h
  rw [haid, hbid, bytes_identity (by simp) (length_branchOf r),
    bytes_identity (by simp) (length_branchOf r')] at hbytes
  obtain ⟨hview, hrest⟩ := List.append_inj (List.cons.inj hbytes).2 (by simp)
  obtain ⟨hline, -⟩ := List.append_inj hrest (by simp [length_branchOf])
  obtain rfl := hbranch r r' hr hr' hline
  have hsame : a.view.toNat = b.view.toNat := congrArg UInt64.toNat (view_inj hview)
  obtain rfl : count = count' := by omega
  rw [habove, habove']

end Identities

section Runs

variable {n : Nat} {v : Variant} {σ : Type} {g : Group n σ} {w : World n v σ}

/-- A run is collision-free if its nodes with data are on different branches. -/
theorem collisionFree (hscheme : g.scheme = scheme)
    (hroot : ∀ b, World.Rooted g w b → Marked b ∧ b.computeId scheme = b.id)
    (hbranch : ∀ b b', World.Rooted g w b → World.Rooted g w b' → branchOf b = branchOf b' →
      b = b') : CollisionFree g w where
  distinct ha hb h := distinct_of_grown hroot hbranch (hscheme ▸ ha) (hscheme ▸ hb) h
  nonzero ha := nonzero_of_grown hroot (hscheme ▸ ha)

def node? : Effect → Option Body
  | .broadcast x => if x.kind = .generic then some x.body else none
  | _ => none

def heardNode? (x : Letter) : Option Body := if x.kind = .generic then some x.body else none

def roots (g : Group n σ) (w : World n v σ) : List Body :=
  genesisNode g.scheme :: (List.finRange n).flatMap fun i =>
    (w i).done.filterMap node? ++ (w i).heard.filterMap heardNode?

theorem mem_roots {b : Body} (h : World.Rooted g w b) : b ∈ roots g w := by
  cases h with
  | genesis => exact List.mem_cons_self
  | @proposed i x hdone hkind =>
    refine List.mem_cons_of_mem _ (List.mem_flatMap.2 ⟨i, List.mem_finRange i, ?_⟩)
    exact List.mem_append_left _ (List.mem_filterMap.2 ⟨_, hdone, by simp [node?, hkind]⟩)
  | @heard i m hm hid =>
    refine List.mem_cons_of_mem _ (List.mem_flatMap.2 ⟨i, List.mem_finRange i, ?_⟩)
    exact List.mem_append_right _ (List.mem_filterMap.2 ⟨_, hm, by simp [heardNode?]; rfl⟩)

/-- The nodes are marked, and no two are on the same branch. -/
def Parted (nodes : List Body) : Prop :=
  (∀ b ∈ nodes, Marked b ∧ b.computeId scheme = b.id) ∧
    ∀ b ∈ nodes, ∀ b' ∈ nodes, branchOf b = branchOf b' → b = b'

instance (nodes : List Body) : Decidable (Parted nodes) := inferInstanceAs (Decidable (_ ∧ _))

theorem collisionFree_of_parted (hscheme : g.scheme = scheme) (h : Parted (roots g w)) :
    CollisionFree g w :=
  collisionFree hscheme (fun b hb => h.1 b (mem_roots hb))
    fun b b' hb hb' => h.2 b (mem_roots hb) b' (mem_roots hb')

end Runs

section Samples

open Cast

-- The numerals of `Fin 4` in runs refer to this instance by name.
scoped instance (priority := high) neZeroFour : @NeZero Nat Zero.ofOfNat0 4 := ⟨by decide⟩

def four : Group 4 Unit := group 4 (by decide) (by decide)

def housed : Group 4 Unit :=
  { four with
    member := fun i => ⟨key i, "host"⟩
    key_injective := four.key_injective }

def settings : Settings where
  members := List.ofFn housed.member
  variant := .basic

/-- Two members receive the leader's latest message and answer it. -/
def exchange (leader a b : Fin 4) : List (Cue 4) :=
  [.deliver leader a 0, .deliver leader b 0, .deliver a leader 0, .deliver b leader 0]

/-- A view of the five-phase protocol, from its NewViews to the decision. -/
def decision (leader a b : Fin 4) : List (Cue 4) :=
  [.deliver a leader 0, .deliver b leader 0] ++
    (exchange leader a b ++ exchange leader a b ++ exchange leader a b)

/-- A run of the five-phase protocol in which views 1 and 2 are decided, both by member 3, who leads
view 2. -/
def fivePhaseRun : World 4 .basic Unit :=
  (play four .basic () ([.begin 0, .begin 2, .begin 3, .timeout 0, .timeout 2, .timeout 3] ++
    decision 2 3 0 ++ [.deliver 2 3 3, .due 3 0, .timeout 0] ++ decision 3 2 0)).world

/-- A run of the five-phase protocol up to the decision of view 1. -/
def lockedRun : World 4 .basic Unit :=
  (play housed .basic () ([.begin 0, .begin 2, .begin 3, .timeout 0, .timeout 2, .timeout 3] ++
    decision 2 3 0)).world

/-- A run of the five-phase protocol in which view 0 is decided without member 0. -/
def decidedRun : World 4 .basic Unit :=
  (play four .basic () ([.begin 0, .begin 1, .begin 2, .begin 3] ++ decision 1 2 3)).world

def broadcastOf (kind : MessageKind) : Letter :=
  ((decidedRun 1).letters.find? fun x => x.kind = kind).getD default

/-- Member 0, but with an application that accepts nothing. -/
def refusing : Context Unit :=
  { four.context 0 with application := { application with accepts := fun _ _ => false } }

def opener : Context Unit := four.context 1

/-- All members receive the leader's node, and two votes reach the next leader, who proposes. -/
def succession (leader : Fin 4) : List (Cue 4) :=
  [.deliver leader (leader + 1) 1, .deliver leader (leader + 2) 1, .deliver leader (leader + 3) 1,
    .due leader 0, .due (leader + 2) 0, .deliver leader (leader + 1) 0,
    .deliver (leader + 2) (leader + 1) 0]

/-- A run of the chained protocol in which views 0 and 1 are decided. -/
def chainedRun : World 4 .chained Unit :=
  (play four .chained () ([.begin 0, .begin 1, .begin 2, .begin 3, .deliver 0 1 0, .deliver 2 1 0] ++
    succession 1 ++ succession 2 ++ succession 3 ++ [.deliver 0 1 2, .deliver 0 2 2, .due 0 1,
      .due 2 1, .deliver 0 1 0, .deliver 2 1 0])).world

/-- A run of the chained protocol up to view 2. Members 1 and 2 have timed out, and their NewViews
for view 3 have not reached its leader, who is in view 2. -/
def earlyRun : World 4 .chained Unit :=
  (play four .chained () ([.begin 0, .begin 1, .begin 2, .begin 3, .deliver 0 1 0, .deliver 2 1 0] ++
    succession 1 ++ succession 2 ++ [.deliver 3 0 1, .deliver 3 1 1, .deliver 3 2 1, .timeout 1,
      .timeout 2])).world

/-- A run of the chained protocol in which view 2 is skipped, up to the proposal of view 6. -/
def gappedRun : World 4 .chained Unit :=
  (play four .chained () ([.begin 0, .begin 1, .begin 2, .begin 3, .deliver 0 1 0, .deliver 2 1 0] ++
    succession 1 ++ succession 2 ++ [.deliver 3 0 1, .deliver 3 1 1, .deliver 3 2 1, .timeout 1,
      .timeout 2, .deliver 1 0 0, .deliver 2 0 0, .timeout 0] ++
    succession 0 ++ succession 1 ++ succession 2)).world

def gapInput : Input := .feed ((gappedRun 3).letters.getLastD default).envelope

/-- A run up to the votes of members 0 and 3 for the proposal of view 0. Member 2, who leads view 1,
has received neither the proposal nor the votes. -/
def polledRun : World 4 .chained Unit :=
  (play four .chained () [.begin 0, .begin 1, .begin 2, .begin 3, .deliver 0 1 0, .deliver 2 1 0,
    .deliver 1 0 1, .deliver 1 3 1, .due 0 0, .due 3 0]).world

/-- A run in which member 2 has not received the proposal of view 0, but a vote for it and the
NewView of member 1 for view 1. -/
def laggingRun : World 4 .chained Unit :=
  (play four .chained () [.begin 0, .begin 1, .begin 2, .begin 3, .deliver 0 1 0, .deliver 2 1 0,
    .deliver 1 0 1, .due 0 0, .deliver 0 2 0, .timeout 1, .deliver 1 2 0]).world

def payload : (count : Nat) → Payload
  | 0 => Payload.genesis
  | count + 1 => ⟨(payload count).hash scheme, [1]⟩

theorem fivePhaseRun_spec : Parted (roots four fivePhaseRun) ∧
    .deliver 1 (payload 1) ∈ (fivePhaseRun 2).done ∧
    .deliver 2 (payload 2) ∈ (fivePhaseRun 3).done := by
  decide +kernel

theorem ofSettings_housed {i : Fin 4} :
    Context.ofSettings scheme (signer i) application settings = .ok (housed.context i) := by
  match i with
  | 0 | 1 | 2 | 3 => rfl

theorem lockedRun_spec :
    (lockedRun 0).state.locked.map Certificate.view = some (lockedRun 0).state.view := by
  decide +kernel

theorem chainedRun_spec : Parted (roots four chainedRun) ∧
    .deliver 0 (payload 1) ∈ (chainedRun 0).done ∧
    .deliver 1 (payload 2) ∈ (chainedRun 1).done := by
  decide +kernel

end Samples

end Concord.Core.Legible
