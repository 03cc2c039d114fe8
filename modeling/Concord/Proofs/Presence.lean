import Concord.Transport.PeerTable
import Mathlib.Data.Finset.Card
import Mathlib.Data.List.Induction

/-!
The table of peers after a sequence of exchanges. The entry of a member depends on its own exchanges
only, and the count of members online agrees with the entries.
-/

namespace Concord.Transport

structure Mark where
  key : PublicKey
  answered : Bool

def Peer.marked (p : Peer) (m : Mark) : Peer :=
  if p.member.key = m.key then
    if m.answered then { p with online := true, seen := true, failures := 0 }
    else { p with online := false, failures := min (p.failures + 1) (UInt32.size - 1) }
  else p

namespace PeerTable

def mark (t : PeerTable) (m : Mark) : PeerTable :=
  if m.answered then t.markOnline m.key else t.markOffline m.key

def run (members : List Member) (marks : List Mark) : PeerTable :=
  marks.foldl mark (ofMembers members)

/-- The members without those whose key occurs earlier in the list. -/
def firstListed : List Member → List Member
  | [] => []
  | m :: rest => m :: (firstListed rest).filter fun x => x.key ≠ m.key

/-- Whether the last mark of `key` is an answer. -/
def answers (marks : List Mark) (key : PublicKey) : Bool :=
  (marks.filter fun m => m.key = key).getLast?.any Mark.answered

/-- The number of marks of `key` since its last answer. -/
def misses (marks : List Mark) (key : PublicKey) : Nat :=
  ((marks.filter fun m => m.key = key).reverse.takeWhile fun m => !m.answered).length

/-- The entry of a member after the given marks. -/
def entry (marks : List Mark) (member : Member) : Peer where
  member := member
  online := answers marks member.key
  seen := marks.any fun m => m.key = member.key && m.answered
  failures := min (misses marks member.key) (UInt32.size - 1)

def answering (members : List Member) (marks : List Mark) : Finset PublicKey :=
  (members.map Member.key).toFinset.filter fun key => answers marks key

section Listing

theorem firstByKey_eq (seen : List PublicKey) (members : List Member) :
    firstByKey seen members = (firstListed members).filter fun m => m.key ∉ seen := by
  induction members generalizing seen with
  | nil => rfl
  | cons m rest ih =>
    rw [firstByKey, firstListed]
    by_cases hm : m.key ∈ seen
    · rw [if_pos hm, ih, List.filter_cons_of_neg (by simpa using hm), List.filter_filter]
      apply List.filter_congr
      intro x _
      by_cases hx : x.key = m.key
      · simp [hx, hm]
      · simp [hx]
    · rw [if_neg hm, ih, List.filter_cons_of_pos (by simpa using hm), List.filter_filter]
      congr 1
      apply List.filter_congr
      intro x _
      simp [Bool.and_comm]

theorem find?_firstListed (members : List Member) (key : PublicKey) :
    (firstListed members).find? (fun m => m.key = key) = members.find? fun m => m.key = key := by
  induction members with
  | nil => rfl
  | cons m rest ih =>
    rw [firstListed]
    by_cases hm : m.key = key
    · rw [List.find?_cons_of_pos (by simpa using hm), List.find?_cons_of_pos (by simpa using hm)]
    · rw [List.find?_cons_of_neg (by simpa using hm), List.find?_cons_of_neg (by simpa using hm),
        ← ih, List.find?_filter]
      congr 1
      funext x
      by_cases hx : x.key = key
      · simp [hx, Ne.symm hm]
      · simp [hx]

theorem mem_firstListed (members : List Member) (key : PublicKey) :
    key ∈ (firstListed members).map Member.key ↔ key ∈ members.map Member.key := by
  have hnone : ∀ l : List Member,
      key ∉ l.map Member.key ↔ l.find? (fun m => m.key = key) = none := by
    simp
  rw [← not_iff_not, hnone, hnone, find?_firstListed]

end Listing

section Marking

variable {marks : List Mark} {key : PublicKey}

theorem answers_append (marks : List Mark) (m : Mark) (key : PublicKey) :
    answers (marks ++ [m]) key = if m.key = key then m.answered else answers marks key := by
  by_cases hkey : m.key = key
  · simp [answers, hkey]
  · simp [answers, hkey]

theorem misses_append (marks : List Mark) (m : Mark) (key : PublicKey) :
    misses (marks ++ [m]) key =
      if m.key = key then if m.answered then 0 else misses marks key + 1
      else misses marks key := by
  by_cases hkey : m.key = key
  · by_cases hanswered : m.answered
    · simp [misses, hkey, hanswered]
    · simp [misses, hkey, hanswered]
  · simp [misses, hkey]

theorem marked_entry (marks : List Mark) (m : Mark) (member : Member) :
    (entry marks member).marked m = entry (marks ++ [m]) member := by
  by_cases hkey : member.key = m.key
  · by_cases hanswered : m.answered
    · simp [Peer.marked, entry, answers_append, misses_append, hkey, hanswered]
    · simp [Peer.marked, entry, answers_append, misses_append, hkey, hanswered]
      omega
  · simp [Peer.marked, entry, answers_append, misses_append, hkey, Ne.symm hkey]

theorem peers_mark (t : PeerTable) (m : Mark) :
    (t.mark m).peers = t.peers.map fun p => p.marked m := by
  cases hpeer : t.get? m.key with
  | none =>
    have hmarked : ∀ p ∈ t.peers, p.marked m = id p := by
      intro p hp
      have hkey := List.find?_eq_none.1 hpeer p hp
      exact if_neg (by simpa using hkey)
    rw [List.map_congr_left hmarked, List.map_id]
    simp [mark, markOnline, markOffline, hpeer]
  | some peer =>
    by_cases hanswered : m.answered
    · simp [mark, markOnline, hpeer, change, Peer.marked, hanswered]
    · simp [mark, markOffline, hpeer, change, Peer.marked, hanswered]

end Marking

section Counting

variable {members : List Member} {marks : List Mark} {m : Mark}

theorem mem_answering {key : PublicKey} : key ∈ answering members marks ↔
    key ∈ members.map Member.key ∧ answers marks key := by
  simp only [answering, Finset.mem_filter, List.mem_toFinset]

theorem answering_of_unknown (hkey : m.key ∉ members.map Member.key) :
    answering members (marks ++ [m]) = answering members marks := by
  ext key
  rw [mem_answering, mem_answering, answers_append]
  by_cases heq : m.key = key
  · simp [← heq, hkey]
  · simp [heq]

theorem answering_of_answered (hkey : m.key ∈ members.map Member.key) (hanswered : m.answered) :
    answering members (marks ++ [m]) = insert m.key (answering members marks) := by
  ext key
  rw [Finset.mem_insert, mem_answering, mem_answering, answers_append]
  by_cases heq : m.key = key
  · simp [← heq, hkey, hanswered]
  · simp [heq, Ne.symm heq]

theorem answering_of_missed (hmissed : ¬ m.answered) :
    answering members (marks ++ [m]) = (answering members marks).erase m.key := by
  ext key
  rw [Finset.mem_erase, mem_answering, mem_answering, answers_append]
  by_cases heq : m.key = key
  · simp [← heq, hmissed]
  · simp [heq, Ne.symm heq]

end Counting

/-- The table that results from the given marks. -/
structure Tracks (members : List Member) (marks : List Mark) (t : PeerTable) : Prop where
  peers_eq : t.peers = (firstListed members).map (entry marks)
  count_eq : t.onlineCount = (answering members marks).card

section Tracking

variable {members : List Member} {marks : List Mark} {t : PeerTable} {key : PublicKey}

theorem tracks_ofMembers (members : List Member) : Tracks members [] (ofMembers members) := by
  constructor
  · simp only [ofMembers, firstByKey_eq, List.not_mem_nil, not_false_eq_true, decide_true,
      List.filter_true]
    rfl
  · simp [ofMembers, answering, answers]

theorem Tracks.get?_eq (h : Tracks members marks t) (key : PublicKey) :
    t.get? key = (members.find? fun m => m.key = key).map (entry marks) := by
  rw [get?, h.peers_eq, List.find?_map, ← find?_firstListed]
  rfl

theorem Tracks.get?_eq_none_iff (h : Tracks members marks t) :
    t.get? key = none ↔ key ∉ members.map Member.key := by
  rw [h.get?_eq]
  simp

theorem Tracks.of_get? (h : Tracks members marks t) {peer : Peer} (hpeer : t.get? key = some peer) :
    key ∈ members.map Member.key ∧ (peer.online ↔ key ∈ answering members marks) := by
  rw [h.get?_eq, Option.map_eq_some_iff] at hpeer
  obtain ⟨member, hmember, rfl⟩ := hpeer
  have hkey : member.key = key := by simpa using List.find?_some hmember
  have hknown : key ∈ members.map Member.key :=
    List.mem_map.2 ⟨member, List.mem_of_find?_eq_some hmember, hkey⟩
  refine ⟨hknown, ?_⟩
  rw [mem_answering, and_iff_right hknown, ← hkey]
  rfl

theorem Tracks.isOnline_iff (h : Tracks members marks t) :
    t.isOnline key ↔ key ∈ answering members marks := by
  rw [isOnline]
  cases hpeer : t.get? key with
  | none => simp [mem_answering, h.get?_eq_none_iff.1 hpeer]
  | some peer => simpa using (h.of_get? hpeer).2

theorem Tracks.onlineMembers_eq (h : Tracks members marks t) :
    t.onlineMembers = (firstListed members).filter fun m => answers marks m.key := by
  rw [onlineMembers, h.peers_eq, List.filter_map, List.map_map]
  exact List.map_id _

theorem Tracks.mem_onlineMembers (h : Tracks members marks t) :
    key ∈ t.onlineMembers.map Member.key ↔ key ∈ answering members marks := by
  rw [mem_answering, ← mem_firstListed members, List.mem_map, List.mem_map, h.onlineMembers_eq]
  constructor
  · intro hlisted
    obtain ⟨member, hmember, hkey⟩ := hlisted
    obtain ⟨hfirst, hanswers⟩ := List.mem_filter.1 hmember
    exact ⟨⟨member, hfirst, hkey⟩, hkey ▸ hanswers⟩
  · intro hanswering
    obtain ⟨⟨member, hfirst, hkey⟩, hanswers⟩ := hanswering
    exact ⟨member, List.mem_filter.2 ⟨hfirst, hkey ▸ hanswers⟩, hkey⟩

theorem Tracks.count_markOffline (h : Tracks members marks t) (honline : t.isOnline key) :
    (t.markOffline key).onlineCount + 1 = t.onlineCount := by
  have hpos : 0 < t.onlineCount := by
    rw [h.count_eq]
    exact Finset.card_pos.2 ⟨key, h.isOnline_iff.1 honline⟩
  rw [isOnline] at honline
  cases hpeer : t.get? key with
  | none =>
    rw [hpeer] at honline
    cases honline
  | some peer =>
    rw [hpeer] at honline
    have hpeer_online : peer.online := honline
    simp only [markOffline, hpeer, hpeer_online, if_true]
    omega

theorem Tracks.count_mark (h : Tracks members marks t) (m : Mark) :
    (t.mark m).onlineCount = (answering members (marks ++ [m])).card := by
  cases hpeer : t.get? m.key with
  | none =>
    rw [answering_of_unknown (h.get?_eq_none_iff.1 hpeer), ← h.count_eq]
    simp [PeerTable.mark, markOnline, markOffline, hpeer]
  | some peer =>
    -- the count moves only where the flag does, which is where the set gains or loses the key
    obtain ⟨hknown, honline⟩ := h.of_get? hpeer
    by_cases hanswered : m.answered
    · rw [answering_of_answered hknown hanswered]
      by_cases hmem : m.key ∈ answering members marks
      · rw [Finset.insert_eq_of_mem hmem, ← h.count_eq]
        simp [PeerTable.mark, markOnline, hpeer, hanswered, honline.2 hmem]
      · rw [Finset.card_insert_of_notMem hmem, ← h.count_eq]
        simp [PeerTable.mark, markOnline, hpeer, hanswered, mt honline.1 hmem]
    · rw [answering_of_missed hanswered]
      by_cases hmem : m.key ∈ answering members marks
      · rw [Finset.card_erase_of_mem hmem, ← h.count_eq]
        simp [PeerTable.mark, markOffline, hpeer, hanswered, honline.2 hmem]
      · rw [Finset.erase_eq_of_notMem hmem, ← h.count_eq]
        simp [PeerTable.mark, markOffline, hpeer, hanswered, mt honline.1 hmem]

theorem Tracks.mark (h : Tracks members marks t) (m : Mark) :
    Tracks members (marks ++ [m]) (t.mark m) := by
  constructor
  · rw [peers_mark, h.peers_eq, List.map_map]
    apply List.map_congr_left
    intro member _
    exact marked_entry marks m member
  · exact h.count_mark m

theorem tracks_run (members : List Member) (marks : List Mark) :
    Tracks members marks (run members marks) := by
  induction marks using List.reverseRecOn with
  | nil => exact tracks_ofMembers members
  | append_singleton marks m ih =>
    rw [run, List.foldl_append]
    exact ih.mark m

theorem Tracks.mark_of_unknown (h : Tracks members marks t) {m : Mark}
    (hkey : m.key ∉ members.map Member.key) : t.mark m = t := by
  have hpeer := h.get?_eq_none_iff.2 hkey
  simp [PeerTable.mark, markOnline, markOffline, hpeer]

/-- After any marks, the members counted and listed as online are those whose last mark is an
answer, in the order and with the addresses of their first occurrences. The entry of a member tells
whether it is online, whether it ever answered, and how often it failed since its last answer.
Marking an online member offline lowers the count by one, and marks of unknown keys change
nothing. -/
theorem last_mark_tells (members : List Member) (marks : List Mark) :
    (run members marks).onlineCount =
      ((members.map Member.key).toFinset.filter fun key => answers marks key).card ∧
    (run members marks).onlineMembers =
      (firstListed members).filter (fun m => answers marks m.key) ∧
    (∀ key, (run members marks).isOnline key ↔
      key ∈ (run members marks).onlineMembers.map Member.key) ∧
    (∀ key, (run members marks).get? key =
      (members.find? fun m => m.key = key).map (entry marks)) ∧
    (∀ key, (run members marks).isOnline key →
      ((run members marks).markOffline key).onlineCount + 1 =
        (run members marks).onlineCount) ∧
    (∀ m : Mark, m.key ∉ members.map Member.key →
      (run members marks).mark m = run members marks) := by
  have h := tracks_run members marks
  refine ⟨h.count_eq, h.onlineMembers_eq, ?_, h.get?_eq, ?_, ?_⟩
  · intro key
    rw [h.isOnline_iff, h.mem_onlineMembers]
  · intro key honline
    exact h.count_markOffline honline
  · intro m hkey
    exact h.mark_of_unknown hkey

end Tracking

section Samples

def named (b : UInt8) : PublicKey := ⟨FixedBytes.replicate 32 b⟩

def twiceListed : List Member := [⟨named 1, "a"⟩, ⟨named 2, "b"⟩, ⟨named 1, "c"⟩]

def exchanges : List Mark :=
  [⟨named 1, true⟩, ⟨named 2, false⟩, ⟨named 1, true⟩, ⟨named 3, true⟩, ⟨named 2, false⟩]

theorem exchanges_spec :
    answers exchanges (named 1) ∧ misses exchanges (named 2) = 2 ∧
    (run twiceListed exchanges).isOnline (named 1) ∧
    named 3 ∉ twiceListed.map Member.key ∧
    (firstListed twiceListed).filter (fun m => answers exchanges m.key) = [⟨named 1, "a"⟩] := by
  decide +kernel

theorem last_mark_tells_of_exchanges :
    (run twiceListed exchanges).onlineMembers = [⟨named 1, "a"⟩] ∧
    ((run twiceListed exchanges).markOffline (named 1)).onlineCount + 1 =
      (run twiceListed exchanges).onlineCount ∧
    (run twiceListed exchanges).mark ⟨named 3, true⟩ = run twiceListed exchanges := by
  obtain ⟨-, -, honline, hunknown, hfirst⟩ := exchanges_spec
  obtain ⟨-, hlisted, -, -, hlowered, hunchanged⟩ := last_mark_tells twiceListed exchanges
  exact ⟨hlisted.trans hfirst, hlowered _ honline, hunchanged ⟨named 3, true⟩ hunknown⟩

end Samples

end PeerTable

end Concord.Transport
