import Concord.Wire.Codec

/-!
The steps of a view and the kinds of message.
-/

namespace Concord

abbrev View := UInt64

namespace View

def last : View := 0xffffffffffffffff

def next? (v : View) : Option View := if v = last then none else some (v + 1)

theorem toNat_next {v w : View} (h : v.next? = some w) : w.toNat = v.toNat + 1 := by
  unfold next? at h
  split at h
  · cases h
  · next hlast =>
    cases h
    have hne : v.toNat ≠ last.toNat := fun he => hlast (UInt64.toNat_inj.1 he)
    have hlast : last.toNat = 18446744073709551615 := rfl
    have hlt := v.toNat_lt
    rw [UInt64.toNat_add, UInt64.toNat_one]
    omega

theorem lt_next {v w : View} (h : v.next? = some w) : v < w := by
  rw [UInt64.lt_iff_toNat_lt, toNat_next h]
  omega

theorem eq_last {v : View} (h : v.next? = none) : v = last := by
  unfold next? at h
  split at h
  · assumption
  · cases h

theorem toNat_last : last.toNat = 18446744073709551615 := rfl

theorem exists_next_of_lt {v w : View} (h : v < w) : ∃ next, v.next? = some next := by
  cases hnext : v.next? with
  | none =>
    have hlt := UInt64.lt_iff_toNat_lt.1 h
    have hbound := w.toNat_lt
    rw [eq_last hnext, toNat_last] at hlt
    omega
  | some next => exact ⟨next, rfl⟩

/-- `v + n`, or the last view if that lies beyond it. -/
def plus (v : View) (n : Nat) : View :=
  if v.toNat + n < UInt64.size then UInt64.ofNat (v.toNat + n) else last

theorem toNat_plus_le (v : View) (n : Nat) : (v.plus n).toNat ≤ v.toNat + n := by
  unfold plus
  split
  · rw [UInt64.toNat_ofNat']
    exact Nat.mod_le _ _
  · next hbeyond =>
    have hsize : UInt64.size = 18446744073709551616 := rfl
    rw [toNat_last]
    omega

theorem plus_one {v w : View} (h : v.next? = some w) : v.plus 1 = w := by
  have hnat := toNat_next h
  have hlt : v.toNat + 1 < UInt64.size := hnat ▸ w.toNat_lt
  refine UInt64.toNat_inj.1 ?_
  rw [plus, if_pos hlt, UInt64.toNat_ofNat', hnat]
  exact Nat.mod_eq_of_lt hlt

theorem plus_one_last : last.plus 1 = last := rfl

/-- The number of views from `earlier` to `later`, or 0 if `later` is not later. -/
def gap (later earlier : View) : Nat := later.toNat - earlier.toNat

end View

/-- A step within a view. The five-phase protocol goes through the first five in order, the chained
one puts them all into the last. -/
inductive Phase
  | newView
  | prepare
  | preCommit
  | commit
  | decide
  | generic
deriving DecidableEq, Repr, Inhabited

inductive MessageKind
  | newView
  | prepare
  | preCommit
  | commit
  | decide
  | vote
  | generic
deriving DecidableEq, Repr, Inhabited

namespace Phase

def all : List Phase := [newView, prepare, preCommit, commit, decide, generic]

def index : Phase → Nat
  | newView => 0
  | prepare => 1
  | preCommit => 2
  | commit => 3
  | decide => 4
  | generic => 5

def next : Phase → Phase
  | newView => prepare
  | prepare => preCommit
  | preCommit => commit
  | commit => decide
  | decide => newView
  | generic => generic

def kind? : Phase → Option MessageKind
  | newView => none
  | prepare => some .prepare
  | preCommit => some .preCommit
  | commit => some .commit
  | decide => some .decide
  | generic => some .generic

def text : Phase → String
  | newView => "new_view"
  | prepare => "prepare"
  | preCommit => "pre_commit"
  | commit => "commit"
  | decide => "decide"
  | generic => "generic"

def name : Phase → String
  | newView => "NewView"
  | prepare => "Prepare"
  | preCommit => "PreCommit"
  | commit => "Commit"
  | decide => "Decide"
  | generic => "Generic"

def codec : Wire.Codec Phase := .choice all index

end Phase

namespace MessageKind

def all : List MessageKind := [newView, prepare, preCommit, commit, decide, vote, generic]

def index : MessageKind → Nat
  | newView => 0
  | prepare => 1
  | preCommit => 2
  | commit => 3
  | decide => 4
  | vote => 5
  | generic => 6

def isProposal : MessageKind → Bool
  | newView | vote => false
  | prepare | preCommit | commit | decide | generic => true

def text : MessageKind → String
  | newView => "new_view"
  | prepare => "prepare"
  | preCommit => "pre_commit"
  | commit => "commit"
  | decide => "decide"
  | vote => "vote"
  | generic => "generic"

def name : MessageKind → String
  | newView => "NewView"
  | prepare => "Prepare"
  | preCommit => "PreCommit"
  | commit => "Commit"
  | decide => "Decide"
  | vote => "Vote"
  | generic => "Generic"

def codec : Wire.Codec MessageKind := .choice all index

end MessageKind

end Concord
