import Concord.Transport.Fault

/-!
Frames: a length in four bytes, most significant first, and that many bytes. An empty frame is a
question whether anyone is there.
-/

namespace Concord.Transport.Frame

def maxSize : Nat := 4 * 1024 * 1024

def write (body : Bytes) : Except Fault Bytes :=
  if maxSize < body.length then .error (.frameTooLarge body.length)
  else .ok (Bytes.bigEndian 4 body.length ++ body)

/-- The body of the first frame, and the bytes after it. -/
def read (b : Bytes) : Except Fault (Bytes × Bytes) :=
  match Bytes.split? 4 b with
  | none => .error .earlyEnd
  | some (front, rest) =>
    let size := Bytes.ofBigEndian front
    if maxSize < size then .error (.frameTooLarge size)
    else match Bytes.split? size rest with
      | none => .error .earlyEnd
      | some (body, rest) => .ok (body, rest)

theorem length_lt_of_read {b body rest : Bytes} (h : read b = .ok (body, rest)) :
    rest.length < b.length := by
  simp only [read] at h
  split at h
  · cases h
  · next front after hfront =>
    obtain ⟨rfl, hlen⟩ := Bytes.eq_append_of_split? hfront
    split at h
    · cases h
    · split at h
      · cases h
      · next hbody =>
        obtain ⟨rfl, -⟩ := Bytes.eq_append_of_split? hbody
        simp only [Except.ok.injEq, Prod.mk.injEq] at h
        obtain ⟨rfl, rfl⟩ := h
        simp only [List.length_append]
        omega

/-- The bodies of all frames up to the first fault, and that fault. -/
def readAll (b : Bytes) : List Bytes × Fault :=
  match h : read b with
  | .error fault => ([], fault)
  | .ok (body, rest) =>
    have := length_lt_of_read h
    let (bodies, fault) := readAll rest
    (body :: bodies, fault)
termination_by b.length

end Concord.Transport.Frame
